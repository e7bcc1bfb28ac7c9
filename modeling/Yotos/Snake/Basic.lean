import Yotos.Library.Run
import Yotos.Library.Shift
import Mathlib.Data.Int.Notation

/-!
# The Snake game

`user/snake.c`. One tick of the main loop reads the keys that are waiting and moves the
snake. `sys_readkey` gives `0` when no key is left. The random numbers are a list that is
used up from the front, and the game has no next state where it ends before the food is
placed. The screen is a function of the index in the text buffer; sleeping and the wait
for Q after the game do not change the state.
-/

namespace Yotos

open Library

/-- `Pt`. -/
structure Pt where
  x : ℤ
  y : ℤ
  deriving DecidableEq

/-- The static variables, `speed`, the random numbers to come, and the screen. -/
structure Snake where
  snake : ℕ → Pt
  slen : ℕ
  dx : ℤ
  dy : ℤ
  food : Pt
  score : UInt32
  speed : UInt32
  draws : List UInt32
  vga : ℤ → UInt16

namespace Snake

/-! ### The text buffer -/

def vgaW : ℤ := 80

def vgaH : ℤ := 25

def black : UInt8 := 0x00

def white : UInt8 := 0x0F

def gray : UInt8 := 0x07

def yellow : UInt8 := 0x0E

def green : UInt8 := 0x0A

def red : UInt8 := 0x0C

def cyan : UInt8 := 0x0B

/-- The cell of a character and its colour. -/
def vgaCell (c col : UInt8) : UInt16 := col.toUInt16 <<< 8 ||| c.toUInt16

def vput (x y : ℤ) (c col : UInt8) (vga : ℤ → UInt16) : ℤ → UInt16 :=
  Function.update vga (y * vgaW + x) (vgaCell c col)

def vclear (vga : ℤ → UInt16) : ℤ → UInt16 :=
  (List.range (vgaW * vgaH).toNat).foldl
    (fun vga (i : ℕ) => Function.update vga i (vgaCell ' '.toUInt8 white)) vga

def vstr (x y : ℤ) : (s : List UInt8) → (col : UInt8) → (vga : ℤ → UInt16) → ℤ → UInt16
  | [], _, vga => vga
  | c :: s, col, vga => vstr (x + 1) y s col (vput x y c col vga)

/-- A string literal. -/
def chars (s : String) : List UInt8 := s.toList.map Char.toUInt8

/-- The digits of `n` that fit in front of `buf`, at most `i` of them. -/
def vnumDigits : (i : ℕ) → (n : UInt32) → (buf : List UInt8) → List UInt8
  | 0, _, buf => buf
  | i + 1, n, buf =>
      if n = 0 then buf else vnumDigits i (n / 10) (('0'.toUInt8 + (n % 10).toUInt8) :: buf)

/-- The digits, and then spaces up to the width of the field. -/
def vnum (x y : ℤ) (n : UInt32) (col : UInt8) (vga : ℤ → UInt16) : ℤ → UInt16 :=
  let buf := if n = 0 then ['0'.toUInt8] else vnumDigits 5 n []
  vstr x y (buf ++ List.replicate (5 - buf.length) ' '.toUInt8) col vga

/-! ### The play area -/

def px : ℤ := 1

def py : ℤ := 2

def pw : ℤ := 78

def ph : ℤ := 21

def drawBorder (vga : ℤ → UInt16) : ℤ → UInt16 :=
  let vga := (List.range (pw + 2).toNat).foldl (fun vga (i : ℕ) =>
    vput (px - 1 + i) (py + ph) '-'.toUInt8 cyan (vput (px - 1 + i) (py - 1) '-'.toUInt8 cyan vga))
    vga
  let vga := (List.range ph.toNat).foldl (fun vga (i : ℕ) =>
    vput (px + pw) (py + i) '|'.toUInt8 cyan (vput (px - 1) (py + i) '|'.toUInt8 cyan vga)) vga
  let vga := vput (px - 1) (py - 1) '+'.toUInt8 cyan vga
  let vga := vput (px + pw) (py - 1) '+'.toUInt8 cyan vga
  let vga := vput (px - 1) (py + ph) '+'.toUInt8 cyan vga
  vput (px + pw) (py + ph) '+'.toUInt8 cyan vga

/-! ### The food -/

/-- `rng`: the next seed, which is the number too. -/
def rng (seed : UInt32) : UInt32 :=
  let seed := seed ^^^ seed <<< 13
  let seed := seed ^^^ seed >>> 17
  seed ^^^ seed <<< 5

/-- The first `n` numbers that `rng` gives. -/
def rngDraws : (n : ℕ) → (seed : UInt32) → List UInt32
  | 0, _ => []
  | n + 1, seed => rng seed :: rngDraws n (rng seed)

/-- `seed` at the start of the program. -/
def initialSeed : UInt32 := 0xDEADBEEF

/-- `MAX_LEN`. -/
def maxLen : ℕ := 512

/-- The cell that two random numbers give. -/
def drawnCell (r r' : UInt32) : Pt :=
  ⟨px + (r % pw.toNat.toUInt32).toNat, py + (r' % ph.toNat.toUInt32).toNat⟩

/-- `place_food`: the new food and the numbers that are left. -/
def placeFood (snake : ℕ → Pt) (slen : ℕ) : (draws : List UInt32) → Option (Pt × List UInt32)
  | r :: r' :: draws =>
      if ∃ i < slen, snake i = drawnCell r r' then placeFood snake slen draws
      else some (drawnCell r r', draws)
  | _ => none

/-! ### The main loop -/

/-- `_start` up to the main loop, over whatever the screen shows. -/
def start (vga : ℤ → UInt16) (draws : List UInt32) : Option Snake :=
  let vga := vclear vga
  let vga := vstr 36 0 (chars "SNAKE") yellow vga
  let vga := vstr 2 1 (chars "Score:") white vga
  let vga := vstr 30 1 (chars "WASD: move  Q: quit") gray vga
  let vga := drawBorder vga
  let cx := px + pw / 2
  let cy := py + ph / 2
  let snake := fun i : ℕ => if i = 0 then ⟨cx, cy⟩ else if i = 1 then ⟨cx - 1, cy⟩
    else if i = 2 then ⟨cx - 2, cy⟩ else ⟨0, 0⟩
  let vga := (List.range 3).foldl
    (fun vga i => vput (snake i).x (snake i).y '#'.toUInt8 green vga) vga
  (placeFood snake 3 draws).map fun (food, draws) =>
    { snake, slen := 3, dx := 1, dy := 0, food, score := 0, speed := 130, draws
      vga := vnum 9 1 0 white (vput food.x food.y '*'.toUInt8 red vga) }

/-- What a key does to the direction. -/
def turn (key : UInt8) (s : Snake) : Snake :=
  let s := if (key = 'w'.toUInt8 ∨ key = 'W'.toUInt8) ∧ s.dy = 0 then
    { s with dx := 0, dy := -1 } else s
  let s := if (key = 's'.toUInt8 ∨ key = 'S'.toUInt8) ∧ s.dy = 0 then
    { s with dx := 0, dy := 1 } else s
  let s := if (key = 'a'.toUInt8 ∨ key = 'A'.toUInt8) ∧ s.dx = 0 then
    { s with dx := -1, dy := 0 } else s
  if (key = 'd'.toUInt8 ∨ key = 'D'.toUInt8) ∧ s.dx = 0 then { s with dx := 1, dy := 0 } else s

/-- The loop over the waiting keys; `none` is `sys_exit`. -/
def drain : (keys : List UInt8) → Snake → Option Snake
  | [], s => some s
  | key :: keys, s =>
      if key = 0 then some s
      else if key = 'q'.toUInt8 ∨ key = 'Q'.toUInt8 then none
      else drain keys (turn key s)

/-- `nh`. -/
def newHead (s : Snake) : Pt := ⟨(s.snake 0).x + s.dx, (s.snake 0).y + s.dy⟩

def hitsWall (nh : Pt) : Prop := nh.x < px ∨ px + pw ≤ nh.x ∨ nh.y < py ∨ py + ph ≤ nh.y

/-- `dead`: the last cell of the body is not looked at. -/
def hitsSelf (s : Snake) : Prop := ∃ i < s.slen - 1, s.snake i = newHead s

instance (nh : Pt) : Decidable (hitsWall nh) := inferInstanceAs (Decidable (_ ∨ _))

instance (s : Snake) : Decidable (hitsSelf s) :=
  inferInstanceAs (Decidable (∃ i < s.slen - 1, s.snake i = newHead s))

/-- The body moves on and is drawn. -/
def advance (s : Snake) : Snake :=
  let nh := newHead s
  let oldTail := s.snake (s.slen - 1)
  let slen := if nh = s.food ∧ s.slen < maxLen then s.slen + 1 else s.slen
  let vga := if nh = s.food then s.vga else vput oldTail.x oldTail.y ' '.toUInt8 black s.vga
  { s with
    snake := Function.update (shift (slen - 1) s.snake) 0 nh
    slen
    vga := vput nh.x nh.y '#'.toUInt8 green vga }

/-- The last block of the loop, where the head has met the food. -/
def feed (s : Snake) : Option Snake :=
  let score := s.score + 1
  let speed := if 60 < s.speed then s.speed - 4 else s.speed
  (placeFood s.snake s.slen s.draws).map fun (food, draws) =>
    { s with
      food, score, speed, draws
      vga := vput food.x food.y '*'.toUInt8 red (vnum 9 1 score white s.vga) }

/-- The game over screen. -/
def gameOver (s : Snake) : Snake :=
  { s with
    vga := vstr 27 13 (chars "Press Q to exit...") white (vstr 32 11 (chars "GAME OVER!") red s.vga) }

/-- How a tick ends. -/
inductive Outcome where
  | exit
  | over (s : Snake)
  | next (s : Snake)

/-- One turn of the main loop; `none` where the food is not placed. -/
def tick (s : Snake) (keys : List UInt8) : Option Outcome :=
  match drain keys s with
  | none => some .exit
  | some s =>
      if hitsWall (newHead s) ∨ hitsSelf s then some (.over (gameOver s))
      else if newHead s = s.food then (feed (advance s)).map .next
      else some (.next (advance s))

/-- A completed tick. -/
def step (s : Snake) (keys : List UInt8) : Option Snake :=
  match tick s keys with
  | some (.next t) => some t
  | _ => none

end Snake

end Yotos
