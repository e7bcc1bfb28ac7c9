import Yotos.Library.Stack
import Yotos.Cpu.Idt

/-!
# The processor

The registers, the instructions that `kernel/cpu.asm` uses, and what the processor does when
an interrupt enters through a gate. A push of a segment register writes 16 bits of the
word; what is in the other half is not specified, so `junk` says it.

The instructions do not fault: segment registers are loaded with the kernel's selectors or
with what was in them before.
-/

namespace Yotos

namespace Cpu

open Bytes

/-- The registers and memory. -/
structure State where
  eax : UInt32
  ecx : UInt32
  edx : UInt32
  ebx : UInt32
  esp : UInt32
  ebp : UInt32
  esi : UInt32
  edi : UInt32
  eip : UInt32
  eflags : UInt32
  cs : UInt16
  ss : UInt16
  ds : UInt16
  es : UInt16
  fs : UInt16
  gs : UInt16
  mem : Bytes

/-- The requested privilege level of a selector. -/
def rpl (selector : UInt16) : ℕ := selector.toNat % 4

/-- The flag IF. -/
def interruptFlag : UInt32 := 0x200

namespace State

/-- The current privilege level. -/
def cpl (s : State) : ℕ := rpl s.cs

def push (w : UInt32) (s : State) : State :=
  { s with esp := s.esp - 4, mem := store32 s.mem (s.esp - 4).toNat w.toNat }

/-- The word on top of the stack. -/
def top (s : State) : UInt32 := wordAt s.mem s.esp.toNat

def pushes (ws : List UInt32) (s : State) : State := ws.foldl (fun s w => s.push w) s

end State

/-- A segment register other than CS and SS. -/
inductive SegReg
  | ds
  | es
  | fs
  | gs

def SegReg.get (s : State) : SegReg → UInt16
  | ds => s.ds
  | es => s.es
  | fs => s.fs
  | gs => s.gs

def SegReg.set (s : State) (v : UInt16) : SegReg → State
  | ds => { s with ds := v }
  | es => { s with es := v }
  | fs => { s with fs := v }
  | gs => { s with gs := v }

/-- The instructions of the stubs. -/
inductive Instr
  | push (w : UInt32)
  | pushEsp
  | pusha
  | popa
  | pushSeg (r : SegReg)
  | popSeg (r : SegReg)
  | movAx (w : UInt16)
  | movSeg (r : SegReg)
  /-- A C function, from its call to its return. -/
  | call (f : State → State)
  | addEsp (w : UInt32)
  | iret

/-- What the processor knows besides its state: the unspecified halves of pushed segment
registers, by address, and the privilege level of a selector's descriptor. -/
structure Env where
  junk : ℕ → UInt16
  dpl : UInt16 → ℕ

variable (env : Env)

/-- A selector that may stay in a register at this privilege level. The selectors `0` to `3`
are null, and an `iret` to an outer level leaves `1` to `3` as they are. -/
def keeps (cpl : ℕ) (selector : UInt16) : Bool := selector.toNat < 4 || cpl ≤ env.dpl selector

/-- What `iret` to an outer level does to a segment register. -/
def checked (cpl : ℕ) (selector : UInt16) : UInt16 := if keeps env cpl selector then selector else 0

/-- `iret`. Coming back to an outer level it takes the stack from the stack as well. -/
def iret (s : State) : State :=
  let word i := wordAt s.mem (s.esp + UInt32.ofNat (4 * i)).toNat
  let cs := (word 1).toUInt16
  if s.cpl < rpl cs then
    { s with
      eip := word 0
      cs := cs
      eflags := word 2
      esp := word 3
      ss := (word 4).toUInt16
      ds := checked env (rpl cs) s.ds
      es := checked env (rpl cs) s.es
      fs := checked env (rpl cs) s.fs
      gs := checked env (rpl cs) s.gs }
  else { s with eip := word 0, cs := cs, eflags := word 2, esp := s.esp + 12 }

def exec : Instr → State → State
  | .push w, s => s.push w
  | .pushEsp, s => s.push s.esp
  | .pusha, s => s.pushes [s.eax, s.ecx, s.edx, s.ebx, s.esp, s.ebp, s.esi, s.edi]
  | .popa, s =>
      let word i := wordAt s.mem (s.esp + UInt32.ofNat (4 * i)).toNat
      { s with
        edi := word 0
        esi := word 1
        ebp := word 2
        ebx := word 4
        edx := word 5
        ecx := word 6
        eax := word 7
        esp := s.esp + 32 }
  | .pushSeg r, s =>
      s.push (UInt32.ofNat ((r.get s).toNat + 65536 * (env.junk (s.esp - 4).toNat).toNat))
  | .popSeg r, s => r.set { s with esp := s.esp + 4 } s.top.toUInt16
  | .movAx w, s => { s with eax := UInt32.ofNat (s.eax.toNat / 65536 * 65536 + w.toNat) }
  | .movSeg r, s => r.set s s.eax.toUInt16
  | .call f, s => f s
  | .addEsp w, s => { s with esp := s.esp + w }
  | .iret, s => iret env s

def run (is : List Instr) (s : State) : State := is.foldl (fun s i => exec env i s) s

/-- `esp0` and `ss0` of the task state segment. -/
structure Tss where
  esp0 : UInt32
  ss0 : UInt16

/-- An interrupt enters through `g`, with an error code or not. From an outer level the
stack is the one of the task state segment. -/
def interrupt (tss : Tss) (g : Gate) (error : List UInt32) (s : State) : State :=
  let inner : State := if s.cpl = 0 then s
    else { s with esp := tss.esp0, ss := tss.ss0 }.pushes [s.ss.toUInt32, s.esp]
  let inner := inner.pushes ([s.eflags, s.cs.toUInt32, s.eip] ++ error)
  { inner with
    cs := UInt16.ofNat g.selector
    eip := UInt32.ofNat g.offset
    eflags := if g.clearsIf then s.eflags &&& ~~~interruptFlag else s.eflags }

/-! ## The stack -/

variable {env : Env} {s : State} {ws ws' : List UInt32} {a b : ℕ}

theorem run_append (is js : List Instr) (s : State) :
    run env (is ++ js) s = run env js (run env is s) :=
  List.foldl_append

theorem toNat_sub_four {x : UInt32} (h : 4 ≤ x.toNat) : (x - 4).toNat = x.toNat - 4 :=
  UInt32.toNat_sub_of_le _ _ h

theorem pushes_append (ws ws' : List UInt32) (s : State) :
    (s.pushes ws).pushes ws' = s.pushes (ws ++ ws') :=
  List.foldl_append.symm

theorem pushes_eq (h : 4 * ws.length ≤ s.esp.toNat) :
    s.pushes ws = { s with
      esp := UInt32.ofNat (s.esp.toNat - 4 * ws.length)
      mem := pushWords s.mem s.esp.toNat ws } := by
  induction ws generalizing s with
  | nil => simp [State.pushes, pushWords]
  | cons w ws ih =>
      rw [List.length_cons] at h
      have hsub := toNat_sub_four (x := s.esp) (by omega)
      have hcons : s.pushes (w :: ws) = (s.push w).pushes ws := rfl
      rw [hcons, ih (by simp only [State.push]; omega)]
      simp only [State.push, hsub, pushWords, List.length_cons]
      rw [show s.esp.toNat - 4 - 4 * ws.length = s.esp.toNat - 4 * (ws.length + 1) by omega]

end Cpu

end Yotos
