import Mathlib.Data.List.Find
import Yotos.Library.CString
import Yotos.Library.LineEditor
import Yotos.Shell.Basic

/-!
# The input line of the shell

`shell/shell.c`: `shell_run` polls the keyboard and the serial line for characters and puts
them into an array of 256 bytes, which `shell_execute` splits in place and hands to a
command. Whatever the commands leave in the array, the shell is a line editor: a command is
called for every line that is entered, with the words of that line.
-/

namespace Yotos

namespace Shell

open Bytes Fat16 Library

/-! ## The code -/

/-- `INPUT_SIZE`. -/
def inputSize : ℕ := 256

/-- `strcmp` of `klibc/string.c`, whose characters are signed. -/
def strcmp : List UInt8 → List UInt8 → ℤ
  | x :: xs, y :: ys => if x = y then strcmp xs ys else x.toInt8.toInt - y.toInt8.toInt
  | xs, ys => (xs.headD 0).toInt8.toInt - (ys.headD 0).toInt8.toInt

/-- The functions that `commands` names. -/
inductive Func
  | cmdHelp | cmdClear | cmdMem | cmdLs | cmdCat | cmdCd | cmdTouch | cmdMkdir | cmdEcho | cmdExec
  deriving DecidableEq

/-- The table of commands. -/
def commands : List (List UInt8 × Func) :=
  [(ascii "help", .cmdHelp), (ascii "clear", .cmdClear), (ascii "mem", .cmdMem),
    (ascii "ls", .cmdLs), (ascii "cat", .cmdCat), (ascii "cd", .cmdCd),
    (ascii "touch", .cmdTouch), (ascii "mkdir", .cmdMkdir), (ascii "echo", .cmdEcho),
    (ascii "exec", .cmdExec)]

/-- What comes of a line. -/
inductive Execution
  | func (f : Func) (arg : List UInt8)
  | unknownCommand (cmd : List UInt8)
  | nothing
  deriving DecidableEq

/-- The loop over `input` up to the first space, from `i` on, with what is left of the
array: the index of the space if there is one. -/
def firstSpace (input : Bytes) : (rest i : ℕ) → Option (Option ℕ)
  | 0, _ => none
  | rest + 1, i =>
      if input i = 0 then some none
      else if input i = 0x20 then some (some i)
      else firstSpace input rest (i + 1)

/-- `while (*arg == ' ') arg++`. -/
def skipSpaces (input : Bytes) : (rest arg : ℕ) → Option ℕ
  | 0, _ => none
  | rest + 1, arg => if input arg = 0x20 then skipSpaces input rest (arg + 1) else some arg

/-- The string at an address within `input`. -/
def stringAt (input : Bytes) (p : ℕ) : List UInt8 := cString (bytesAt input p (inputSize - p))

/-- The loop over `commands`, and the message after it. -/
def dispatch (cmd arg : List UInt8) : Execution :=
  match commands.find? fun c => strcmp cmd c.1 = 0 with
  | some c => .func c.2 arg
  | none => if strcmp cmd [] ≠ 0 then .unknownCommand cmd else .nothing

/-- `shell_execute`: what it does, and the line that it has split. It is `none` when a loop
leaves the array. -/
def shellExecute (input : Bytes) : Option (Execution × Bytes) :=
  (firstSpace input inputSize 0).bind fun
    | none => some (dispatch (stringAt input 0) [], input)
    | some i =>
        let input := store8 input i 0
        (skipSpaces input (inputSize - (i + 1)) (i + 1)).map fun arg =>
          (dispatch (stringAt input 0) (stringAt input arg), input)

/-- The variables of `shell_run`. -/
structure Line where
  input : Bytes
  i : ℕ
  fromUart : Bool

/-- What `shell_run` does. -/
inductive Output
  | terminalPutchar (c : UInt8)
  /-- `shell_execute` under a value of `uart_output_mode` -/
  | execute (uartOutputMode : Bool) (e : Execution)
  | prompt
  deriving DecidableEq

/-- The loop of `shell_run` once it has a character. What a command leaves in the line is
given by `leave`. -/
def shellChar (leave : Execution → Bytes → Bytes) (c : UInt8) (s : Line) :
    Option (Line × List Output) :=
  if c = 0x0A then
    (shellExecute (store8 s.input s.i 0)).map fun (e, input) =>
      ({ s with input := leave e input, i := 0 },
        [.terminalPutchar 0x0A, .execute s.fromUart e, .prompt])
  else if c = 0x08 then
    if 0 < s.i then some ({ s with i := s.i - 1 }, [.terminalPutchar 0x08]) else some (s, [])
  else if s.i < inputSize - 1 then
    some ({ s with input := store8 s.input s.i c, i := s.i + 1 }, [.terminalPutchar c])
  else some (s, [])

/-- One turn of the loop, with the results of `keyboard_getchar` and `uart_getchar`. -/
def shellTurn (leave : Execution → Bytes → Bytes) (key uart : UInt8) (s : Line) :
    Option (Line × List Output) :=
  if key ≠ 0 then shellChar leave key { s with fromUart := false }
  else if uart ≠ 0 then shellChar leave uart { s with fromUart := true }
  else some (s, [])

/-- Turns with these results of the two polls. -/
def shellTurns (leave : Execution → Bytes → Bytes) :
    List (UInt8 × UInt8) → Line → Option (Line × List Output)
  | [], s => some (s, [])
  | p :: polls, s =>
      (shellTurn leave p.1 p.2 s).bind fun r =>
        (shellTurns leave polls r.1).map fun r' => (r'.1, r.2 ++ r'.2)

/-- `shell_run` from its loop on. -/
def shellRun (leave : Execution → Bytes → Bytes) (input : Bytes) (polls : List (UInt8 × UInt8)) :
    Option (Line × List Output) :=
  shellTurns leave polls ⟨input, 0, false⟩

/-! ## The line editor -/

/-- The first word of a line. -/
def command (line : List UInt8) : List UInt8 := line.takeWhile (· ≠ 0x20)

/-- What follows the spaces behind the first word. -/
def argument (line : List UInt8) : List UInt8 :=
  (line.dropWhile (· ≠ 0x20)).dropWhile (· = 0x20)

/-- What a line means. -/
def meaning (line : List UInt8) : Execution :=
  match commands.find? fun c => c.1 = command line with
  | some c => .func c.2 (argument line)
  | none => if command line = [] then .nothing else .unknownCommand (command line)

/-- The key of a character, `true` for the serial line. -/
def keystroke (c : UInt8) (device : Bool) : Keystroke UInt8 Bool :=
  if c = 0x0A then .enter device else if c = 0x08 then .rubout else .char c

/-- The key that a pair of polls gives. The serial line is read if the keyboard has none. -/
def polled (p : UInt8 × UInt8) : Option (Keystroke UInt8 Bool) :=
  if p.1 ≠ 0 then some (keystroke p.1 false)
  else if p.2 ≠ 0 then some (keystroke p.2 true)
  else none

/-- What a key does on the screen and beyond. -/
def echo (line : List UInt8) : Keystroke UInt8 Bool → List Output
  | .char c => if line.length < inputSize - 1 then [.terminalPutchar c] else []
  | .rubout => if line = [] then [] else [.terminalPutchar 0x08]
  | .enter device => [.terminalPutchar 0x0A, .execute device (meaning line), .prompt]

def echoAll : (line : List UInt8) → List (Keystroke UInt8 Bool) → List Output
  | _, [] => []
  | line, k :: keys => echo line k ++ echoAll (stroke (inputSize - 1) line k) keys

/-- The commands among the outputs. -/
def executions (outputs : List Output) : List (Execution × Bool) :=
  outputs.filterMap fun
    | .execute device e => some (e, device)
    | _ => none

/-! ## Words -/

variable {m input : Bytes} {p rest : ℕ} {line xs ys : List UInt8}

theorem strcmp_eq_zero (hx : 0 ∉ xs) (hy : 0 ∉ ys) : strcmp xs ys = 0 ↔ xs = ys := by
  have hsigned : ∀ {a b : UInt8}, a.toInt8.toInt - b.toInt8.toInt = 0 → a = b := by
    intro a b h
    exact congrArg Int8.toUInt8 (Int8.toInt_inj.1 (Int.sub_eq_zero.1 h))
  induction xs generalizing ys with
  | nil =>
      cases ys with
      | nil => simp [strcmp]
      | cons y ys =>
          refine iff_of_false (fun h => hy ?_) (by simp)
          rw [show (0 : UInt8) = y from hsigned h]
          exact List.mem_cons_self ..
  | cons x xs ih =>
      cases ys with
      | nil =>
          refine iff_of_false (fun h => hx ?_) (by simp)
          rw [← show x = (0 : UInt8) from hsigned h]
          exact List.mem_cons_self ..
      | cons y ys =>
          rw [strcmp, List.cons.injEq]
          by_cases hxy : x = y
          · have hrest := ih (fun h => hx (List.mem_cons_of_mem _ h))
              fun h => hy (List.mem_cons_of_mem _ h)
            rw [if_pos hxy]
            exact hrest.trans ⟨fun h => ⟨hxy, h⟩, And.right⟩
          · rw [if_neg hxy]
            exact iff_of_false (fun h => hxy (hsigned h)) fun h => hxy h.1

theorem dispatch_eq (hzero : 0 ∉ command line) :
    dispatch (command line) (argument line) = meaning line := by
  have hfind : commands.find? (fun c => strcmp (command line) c.1 = 0) =
      commands.find? fun c => c.1 = command line := by
    refine List.find?_congr fun c hc => ?_
    have hname : 0 ∉ c.1 := by
      revert c
      decide
    rw [decide_eq_decide, strcmp_eq_zero hzero hname]
    exact eq_comm
  rw [dispatch, meaning, hfind]
  cases commands.find? fun c => c.1 = command line with
  | some c => rfl
  | none =>
      dsimp only
      by_cases hnil : command line = []
      · rw [if_pos hnil, if_neg (not_not.2 ((strcmp_eq_zero hzero List.not_mem_nil).2 hnil))]
      · rw [if_neg hnil, if_pos fun h => hnil ((strcmp_eq_zero hzero List.not_mem_nil).1 h)]

theorem firstSpace_eq (h : IsString m p line) (hrest : line.length < rest) :
    firstSpace m rest p =
      some (if 0x20 ∈ line then some (p + (command line).length) else none) := by
  obtain ⟨rest, rfl⟩ : ∃ k, rest = k + 1 := ⟨rest - 1, by omega⟩
  induction line generalizing p rest with
  | nil => rw [firstSpace, if_pos (show m p = 0 from h), if_neg List.not_mem_nil]
  | cons c line ih =>
      obtain ⟨hc, hne, hrest'⟩ := h
      rw [List.length_cons] at hrest
      obtain ⟨rest, rfl⟩ : ∃ k, rest = k + 1 := ⟨rest - 1, by omega⟩
      rw [firstSpace, hc, if_neg hne]
      by_cases hspace : c = 0x20
      · subst hspace
        rw [if_pos rfl, if_pos (List.mem_cons_self ..)]
        rfl
      · have hcommand : command (c :: line) = c :: command line :=
          List.takeWhile_cons_of_pos (by simpa using hspace)
        rw [if_neg hspace, ih hrest' rest (by omega), hcommand, List.length_cons]
        have hmem : 0x20 ∈ c :: line ↔ 0x20 ∈ line := by
          rw [List.mem_cons]
          exact or_iff_right fun heq => hspace heq.symm
        rw [if_congr hmem rfl rfl, show p + 1 + (command line).length =
          p + ((command line).length + 1) by omega]

theorem skipSpaces_eq (h : IsString m p line) (hrest : line.length < rest) :
    skipSpaces m rest p = some (p + (line.takeWhile (· = 0x20)).length) := by
  obtain ⟨rest, rfl⟩ : ∃ k, rest = k + 1 := ⟨rest - 1, by omega⟩
  induction line generalizing p rest with
  | nil =>
      rw [skipSpaces, show m p = 0 from h]
      rfl
  | cons c line ih =>
      obtain ⟨hc, -, hrest'⟩ := h
      rw [List.length_cons] at hrest
      obtain ⟨rest, rfl⟩ : ∃ k, rest = k + 1 := ⟨rest - 1, by omega⟩
      rw [skipSpaces, hc]
      by_cases hspace : c = 0x20
      · rw [if_pos hspace, ih hrest' rest (by omega),
          List.takeWhile_cons_of_pos (by simpa using hspace), List.length_cons,
          show p + 1 + (line.takeWhile (· = 0x20)).length =
            p + ((line.takeWhile (· = 0x20)).length + 1) by omega]
      · rw [if_neg hspace, List.takeWhile_cons_of_neg (by simpa using hspace)]
        rfl

theorem stringAt_eq (h : IsString m p line) (hp : p + line.length < inputSize) :
    stringAt m p = line :=
  h.takeWhile_bytesAt (by omega)

theorem dropWhile_eq_space (h : 0x20 ∈ line) :
    ∃ tail, line.dropWhile (· ≠ 0x20) = 0x20 :: tail := by
  have hhead := List.head?_dropWhile_not (fun c : UInt8 => decide (c ≠ 0x20)) line
  cases hdrop : line.dropWhile (· ≠ 0x20) with
  | nil =>
      have hall := List.dropWhile_eq_nil_iff.1 hdrop 0x20 h
      simp at hall
  | cons c tail =>
      rw [hdrop] at hhead
      have hc : c = 0x20 := by simpa using hhead
      exact ⟨tail, by rw [hc]⟩

/-- The line is split into the words that it means, within the array. -/
theorem shellExecute_eq (h : IsString input 0 line) (hlen : line.length < inputSize) :
    ∃ input', shellExecute input = some (meaning line, input') ∧
      ∀ x, inputSize ≤ x → input' x = input x := by
  have hzero : 0 ∉ line := by
    have hline : line ++ [] = line := List.append_nil line
    intro hmem
    obtain ⟨i, hi⟩ := List.mem_iff_getElem?.1 hmem
    exact ((isString_append.1 (hline.symm ▸ h)).1 i 0 hi).2 rfl
  have hcommand : 0 ∉ command line := fun hmem => hzero ((List.takeWhile_subset _) hmem)
  rw [shellExecute, firstSpace_eq h hlen, Option.bind_some]
  by_cases hspace : 0x20 ∈ line
  · rw [if_pos hspace, Nat.zero_add]
    dsimp only
    -- the first word, the space and the rest
    obtain ⟨tail, htail⟩ := dropWhile_eq_space hspace
    have hsplit : line = command line ++ 0x20 :: tail := by
      rw [← htail]
      exact List.takeWhile_append_dropWhile.symm
    have hsize : line.length = (command line).length + (tail.length + 1) := by
      rw [← List.length_cons, ← List.length_append, ← hsplit]
    obtain ⟨hfirst, hrest⟩ := IsString.cut (hsplit ▸ h)
    rw [Nat.zero_add] at hfirst hrest
    have hlast : argument line = tail.dropWhile (· = 0x20) := by
      rw [argument, htail]
      exact List.dropWhile_cons_of_pos rfl
    have htail' : tail = tail.takeWhile (· = 0x20) ++ argument line := by
      rw [hlast, List.takeWhile_append_dropWhile]
    have hsize' : tail.length = (tail.takeWhile (· = 0x20)).length + (argument line).length := by
      rw [← List.length_append, ← htail']
    have harg := IsString.drop (htail' ▸ hrest)
    rw [skipSpaces_eq hrest (by omega), Option.map_some, stringAt_eq hfirst (by omega),
      stringAt_eq harg (by omega), dispatch_eq hcommand]
    exact ⟨_, rfl, fun x hx => store8_of_ne _ _ (by omega)⟩
  · rw [if_neg hspace]
    have hall : ∀ c ∈ line, decide (c ≠ 0x20) = true := by
      intro c hc
      rw [decide_eq_true_iff]
      rintro rfl
      exact hspace hc
    have hfirst : command line = line := List.takeWhile_eq_self_iff.2 hall
    have hlast : argument line = [] := by
      rw [argument, List.dropWhile_eq_nil_iff.2 hall]
      rfl
    have hdispatch := dispatch_eq hcommand
    rw [hlast, hfirst] at hdispatch
    rw [stringAt_eq h (by omega), hdispatch]
    exact ⟨input, rfl, fun _ _ => rfl⟩

/-! ## Turns -/

/-- The array holds the line that was typed. -/
structure Typed (s : Line) (line : List UInt8) : Prop where
  i_eq : s.i = line.length
  length_le : line.length ≤ inputSize - 1
  bytes : bytesAt s.input 0 line.length = line
  ne_zero : 0 ∉ line

/-- What the commands leave alone behind the array. -/
def KeepsToArray (leave : Execution → Bytes → Bytes) : Prop :=
  ∀ e m x, inputSize ≤ x → leave e m x = m x

variable {leave : Execution → Bytes → Bytes} {s : Line} {c key uart : UInt8} {device : Bool}
  {k : Keystroke UInt8 Bool}

theorem Typed.fromUart (h : Typed s line) (device : Bool) :
    Typed { s with fromUart := device } line :=
  ⟨h.i_eq, h.length_le, h.bytes, h.ne_zero⟩

/-- One character is one key. -/
theorem Typed.shellChar (hleave : KeepsToArray leave) (h : Typed s line) (hc : c ≠ 0) :
    ∃ s', shellChar leave c s = some (s', echo line (keystroke c s.fromUart)) ∧
      Typed s' (stroke (inputSize - 1) line (keystroke c s.fromUart)) ∧
      ∀ x, inputSize ≤ x → s'.input x = s.input x := by
  obtain ⟨hi, hle, hbytes, hzero⟩ := h
  have hsize : inputSize = 256 := rfl
  rw [Shell.shellChar, keystroke, hi]
  by_cases henter : c = 0x0A
  · rw [if_pos henter, if_pos henter]
    have hstring : IsString (store8 s.input line.length 0) 0 line := by
      have := isString_of_bytesAt hbytes hzero
      rwa [Nat.zero_add] at this
    obtain ⟨input', hrun, hframe⟩ := shellExecute_eq hstring (by omega)
    rw [hrun]
    refine ⟨_, rfl, ⟨rfl, Nat.zero_le _, rfl, List.not_mem_nil⟩, fun x hx => ?_⟩
    dsimp only
    rw [hleave _ _ x hx, hframe x hx, store8_of_ne _ _ (by omega)]
  rw [if_neg henter, if_neg henter]
  by_cases hrubout : c = 0x08
  · rw [if_pos hrubout, if_pos hrubout]
    rcases List.eq_nil_or_concat' line with rfl | ⟨front, last, rfl⟩
    · exact ⟨s, rfl, ⟨hi, hle, hbytes, hzero⟩, fun _ _ => rfl⟩
    · have hlen : (front ++ [last]).length = front.length + 1 := by
        rw [List.length_append, List.length_singleton]
      rw [if_pos (by omega), echo, if_neg (by simp), stroke, List.dropLast_concat, hlen,
        Nat.add_sub_cancel]
      refine ⟨_, rfl, ⟨rfl, by omega, ?_, fun h => hzero (List.mem_append_left _ h)⟩,
        fun _ _ => rfl⟩
      dsimp only
      rw [bytesAt_take (show front.length ≤ (front ++ [last]).length by omega), hbytes,
        List.take_left]
  · rw [if_neg hrubout, if_neg hrubout, echo, stroke]
    by_cases hroom : line.length < inputSize - 1
    · rw [if_pos hroom, if_pos hroom, if_pos hroom]
      refine ⟨_, rfl, ⟨?_, ?_, ?_, fun h => ?_⟩, fun x hx => store8_of_ne _ _ (by omega)⟩
      · rw [List.length_append, List.length_singleton]
      · rw [List.length_append, List.length_singleton]
        omega
      · dsimp only
        have hsame : bytesAt (store8 s.input line.length c) 0 line.length =
            bytesAt s.input 0 line.length := by
          refine List.map_congr_left fun x hx => store8_of_ne _ _ ?_
          have := List.mem_range.1 hx
          omega
        rw [List.length_append, List.length_singleton, bytesAt_succ, hsame, hbytes, Nat.zero_add,
          store8_self]
      · rcases List.mem_append.1 h with h | h
        · exact hzero h
        · exact hc (List.mem_singleton.1 h).symm
    · rw [if_neg hroom, if_neg hroom, if_neg hroom]
      exact ⟨s, rfl, ⟨hi, hle, hbytes, hzero⟩, fun _ _ => rfl⟩

theorem Typed.shellTurn (hleave : KeepsToArray leave) (h : Typed s line) (p : UInt8 × UInt8) :
    ∃ s', shellTurn leave p.1 p.2 s = some (s', echoAll line (polled p).toList) ∧
      Typed s' (strokes (inputSize - 1) line (polled p).toList) ∧
      ∀ x, inputSize ≤ x → s'.input x = s.input x := by
  rw [Shell.shellTurn, polled]
  by_cases hkey : p.1 ≠ 0
  · rw [if_pos hkey, if_pos hkey]
    obtain ⟨s', hrun, htyped, hframe⟩ := (h.fromUart false).shellChar hleave hkey
    refine ⟨s', ?_, htyped, hframe⟩
    rw [hrun, Option.toList_some, echoAll, echoAll, List.append_nil]
  · rw [if_neg hkey, if_neg hkey]
    by_cases huart : p.2 ≠ 0
    · rw [if_pos huart, if_pos huart]
      obtain ⟨s', hrun, htyped, hframe⟩ := (h.fromUart true).shellChar hleave huart
      refine ⟨s', ?_, htyped, hframe⟩
      rw [hrun, Option.toList_some, echoAll, echoAll, List.append_nil]
    · rw [if_neg huart, if_neg huart]
      exact ⟨s, rfl, h, fun _ _ => rfl⟩

theorem echoAll_append (line : List UInt8) (keys keys' : List (Keystroke UInt8 Bool)) :
    echoAll line (keys ++ keys') =
      echoAll line keys ++ echoAll (strokes (inputSize - 1) line keys) keys' := by
  induction keys generalizing line with
  | nil => rfl
  | cons k keys ih =>
      rw [List.cons_append, echoAll, ih, echoAll, List.append_assoc]
      rfl

theorem Typed.shellTurns (hleave : KeepsToArray leave) (h : Typed s line)
    (polls : List (UInt8 × UInt8)) :
    ∃ s', shellTurns leave polls s = some (s', echoAll line (polls.filterMap polled)) ∧
      Typed s' (strokes (inputSize - 1) line (polls.filterMap polled)) ∧
      ∀ x, inputSize ≤ x → s'.input x = s.input x := by
  induction polls generalizing s line with
  | nil => exact ⟨s, rfl, h, fun _ _ => rfl⟩
  | cons p polls ih =>
      obtain ⟨s₁, hturn, htyped, hframe⟩ := h.shellTurn hleave p
      obtain ⟨s₂, hturns, htyped', hframe'⟩ := ih htyped
      have hkeys : (p :: polls).filterMap polled =
          (polled p).toList ++ polls.filterMap polled := by
        cases hp : polled p with
        | none => rw [List.filterMap_cons_none hp]; rfl
        | some k => rw [List.filterMap_cons_some hp]; rfl
      refine ⟨s₂, ?_, ?_, fun x hx => (hframe' x hx).trans (hframe x hx)⟩
      · rw [Shell.shellTurns, hturn, Option.bind_some, hturns, Option.map_some, hkeys,
          echoAll_append]
      · rw [hkeys, strokes, List.foldl_append]
        exact htyped'

/-- The commands among the outputs are those of the lines that are entered. -/
theorem executions_echoAll (line : List UInt8) (keys : List (Keystroke UInt8 Bool)) :
    executions (echoAll line keys) =
      (entered (inputSize - 1) line keys).map fun l => (meaning l.1, l.2) := by
  induction keys generalizing line with
  | nil => rfl
  | cons k keys ih =>
      have happend : executions (echo line k ++ echoAll (stroke (inputSize - 1) line k) keys) =
          executions (echo line k) ++
            executions (echoAll (stroke (inputSize - 1) line k) keys) := List.filterMap_append
      rw [echoAll, happend, ih, entered_cons, List.map_append]
      congr 1
      cases k with
      | char c =>
          rw [echo]
          split_ifs <;> rfl
      | rubout =>
          rw [echo]
          split_ifs <;> rfl
      | enter device => rfl

/-- `shell_run`, whatever the polls return, its array held before and the commands leave
there: it never leaves the array, shows what the line editor shows, and calls the
commands of the lines that are entered, and no others. -/
theorem shellRun_eq (hleave : KeepsToArray leave) (input : Bytes) (polls : List (UInt8 × UInt8)) :
    ∃ s outputs, shellRun leave input polls = some (s, outputs) ∧
      outputs = echoAll [] (polls.filterMap polled) ∧
      executions outputs = (entered (inputSize - 1) [] (polls.filterMap polled)).map
        (fun l => (meaning l.1, l.2)) ∧
      Typed s (strokes (inputSize - 1) [] (polls.filterMap polled)) ∧
      ∀ x, inputSize ≤ x → s.input x = input x := by
  have hstart : Typed ⟨input, 0, false⟩ [] := ⟨rfl, Nat.zero_le _, rfl, List.not_mem_nil⟩
  obtain ⟨s, hrun, htyped, hframe⟩ := hstart.shellTurns hleave polls
  exact ⟨s, _, hrun, rfl, executions_echoAll _ _, htyped, hframe⟩

/-- `lx`, a rubout, `s`, two spaces, `a` and the enter key of the serial line. -/
theorem shellRun_eq_ls : ∃ s outputs,
    shellRun (fun _ m => m) (fun _ => 0)
      [(0x6C, 0), (0x78, 0), (0, 0), (0x08, 0x61), (0x73, 0), (0x20, 0), (0, 0x20), (0, 0x61),
        (0, 0x0A)] = some (s, outputs) ∧
      executions outputs = [(.func .cmdLs [0x61], true)] := by
  have hleave : KeepsToArray fun _ m => m := fun _ _ _ _ => rfl
  obtain ⟨s, outputs, hrun, -, hexec, -⟩ := shellRun_eq hleave (fun _ => 0)
    [(0x6C, 0), (0x78, 0), (0, 0), (0x08, 0x61), (0x73, 0), (0x20, 0), (0, 0x20), (0, 0x61),
      (0, 0x0A)]
  refine ⟨s, outputs, hrun, hexec.trans ?_⟩
  decide

end Shell

end Yotos
