import Yotos.Library.Buffer

/-!
# Formatted output

`klibc/stdio.c`: `printf` and the two functions that write a number into a buffer from
the back. Output is the list of the characters handed to `putchar`, in order. A store
before the start of a buffer, a missing or wrong argument and a format that ends in `%`
are undefined and give `none`.
-/

namespace Yotos

namespace Stdio

open Bytes

/-- `print_str` of the characters up to the terminating zero. -/
def printStr (s : List UInt8) : List UInt8 := s.takeWhile (· ≠ 0)

/-- The loop of `print_int`: the index and the buffer after it. -/
def printIntLoop : (i : ℕ) → (value : UInt32) → (buf : Bytes) → Option (ℕ × Bytes)
  | 0, value, buf => if 0 < value then none else some (0, buf)
  | i + 1, value, buf =>
      if 0 < value then printIntLoop i (value / 10) (store8 buf i (0x30 + (value % 10).toUInt8))
      else some (i + 1, buf)

/-- `print_int`; `buf` is what the stack holds. -/
def printInt (value : UInt32) (buf : Bytes) : Option (List UInt8) :=
  if value = 0 then some [0x30]
  else
    (printIntLoop 10 value (store8 buf 10 0)).map fun (i, buf) => printStr (bytesAt buf i (11 - i))

/-- The character of a nibble. -/
def hexChar (nibble : UInt8) : UInt8 :=
  if nibble < 10 then 0x30 + nibble else 0x41 + nibble - 10

/-- The loop of `print_hex`, from index `n + 1` down to 2. -/
def printHexLoop : (n : ℕ) → (value : UInt32) → (buf : Bytes) → Bytes
  | 0, _, buf => buf
  | n + 1, value, buf =>
      printHexLoop n (value >>> 4) (store8 buf (n + 2) (hexChar (value &&& 0xF).toUInt8))

/-- `print_hex`. -/
def printHex (value : UInt32) (buf : Bytes) : List UInt8 :=
  let buf := store8 (store8 (store8 buf 0 0x30) 1 0x78) 10 0
  printStr (bytesAt (printHexLoop 8 value buf) 0 11)

/-- An argument of `printf`. -/
inductive Arg where
  | int (n : Int32)
  | str (s : List UInt8)

/-- `printf`: `%d`, `%x`, `%s` and `%c` take an argument, any other character after `%` is
skipped. -/
def printf (stack : Bytes) : (fmt : List UInt8) → (args : List Arg) → Option (List UInt8)
  | [], _ => some []
  | [0x25], _ => none
  | 0x25 :: c :: fmt, args =>
      if c = 0x64 then
        match args with
        | .int n :: args => do return (← printInt n.toUInt32 stack) ++ (← printf stack fmt args)
        | _ => none
      else if c = 0x78 then
        match args with
        | .int x :: args => do return printHex x.toUInt32 stack ++ (← printf stack fmt args)
        | _ => none
      else if c = 0x73 then
        match args with
        | .str s :: args => do return printStr s ++ (← printf stack fmt args)
        | _ => none
      else if c = 0x63 then
        match args with
        | .int c :: args => do return c.toUInt32.toUInt8 :: (← printf stack fmt args)
        | _ => none
      else printf stack fmt args
  | c :: fmt, args => do return c :: (← printf stack fmt args)

end Stdio

end Yotos
