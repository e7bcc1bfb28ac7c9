import Yotos.Cpu.State

/-!
# The stubs

`kernel/cpu.asm`: every interrupt ends up in the same sequence of instructions, which saves
the registers in a `struct regs` on the stack, calls a C function with its address, and
restores the registers.
-/

namespace Yotos

namespace Cpu

open Bytes

/-- The first part of `isr_global_action`, `irq_global_action` and `syscall_stub`. -/
def saveRegisters : List Instr :=
  [.pusha, .pushSeg .ds, .pushSeg .es, .pushSeg .fs, .pushSeg .gs, .movAx 0x10, .movSeg .ds,
    .movSeg .es, .movSeg .fs, .movSeg .gs, .pushEsp]

/-- And the last one. -/
def restoreRegisters : List Instr :=
  [.addEsp 4, .popSeg .gs, .popSeg .fs, .popSeg .es, .popSeg .ds, .popa, .addEsp 8, .iret]

/-- A stub: what it pushes, and the sequence with its C function. -/
def stub (pushed : List UInt32) (handler : State → State) : List Instr :=
  pushed.map .push ++ saveRegisters ++ [.call handler] ++ restoreRegisters

/-- The exceptions with an `isr_err_stub`. -/
def errStubs : List ℕ := [8, 10, 11, 12, 13, 14, 17, 30]

/-- What `isr_stub_v` pushes: the vector, and an error code where it takes the processor to
push none. -/
def isrPushed (v : ℕ) : List UInt32 :=
  if v ∈ errStubs then [UInt32.ofNat v] else [0, UInt32.ofNat v]

/-- What `irq_stub_i` pushes. -/
def irqPushed (i : ℕ) : List UInt32 := [0, UInt32.ofNat i]

/-- What `syscall_stub` pushes. -/
def syscallPushed : List UInt32 := [0, 0x80]

/-- `struct regs`. -/
structure Regs where
  gs : UInt32
  fs : UInt32
  es : UInt32
  ds : UInt32
  edi : UInt32
  esi : UInt32
  ebp : UInt32
  esp : UInt32
  ebx : UInt32
  edx : UInt32
  ecx : UInt32
  eax : UInt32
  vector : UInt32
  errorCode : UInt32
  eip : UInt32
  cs : UInt32
  eflags : UInt32

/-- The `struct regs` at address `p`. -/
def regsAt (m : Bytes) (p : ℕ) : Regs where
  gs := wordAt m p
  fs := wordAt m (p + 4)
  es := wordAt m (p + 8)
  ds := wordAt m (p + 12)
  edi := wordAt m (p + 16)
  esi := wordAt m (p + 20)
  ebp := wordAt m (p + 24)
  esp := wordAt m (p + 28)
  ebx := wordAt m (p + 32)
  edx := wordAt m (p + 36)
  ecx := wordAt m (p + 40)
  eax := wordAt m (p + 44)
  vector := wordAt m (p + 48)
  errorCode := wordAt m (p + 52)
  eip := wordAt m (p + 56)
  cs := wordAt m (p + 60)
  eflags := wordAt m (p + 64)

variable {env : Env} {tss : Tss} {g : Gate} {s t : State} {error pushed : List UInt32} {p : ℕ}

/-! ## Saving -/

/-- A pushed segment register. -/
def segWord (env : Env) (selector : UInt16) (a : ℕ) : UInt32 :=
  UInt32.ofNat (selector.toNat + 65536 * (env.junk a).toNat)

theorem toUInt16_segWord (env : Env) (selector : UInt16) (a : ℕ) :
    (segWord env selector a).toUInt16 = selector := by
  have hlt := selector.toNat_lt
  refine UInt16.toNat_inj.1 ?_
  rw [UInt32.toNat_toUInt16, segWord, UInt32.toNat_ofNat']
  omega

theorem toUInt16_movAx (e : ℕ) (w : UInt16) :
    (UInt32.ofNat (e / 65536 * 65536 + w.toNat)).toUInt16 = w := by
  have hlt := w.toNat_lt
  refine UInt16.toNat_inj.1 ?_
  rw [UInt32.toNat_toUInt16, UInt32.toNat_ofNat']
  omega

/-- The words of the general registers. -/
def general (s : State) : List UInt32 :=
  [s.eax, s.ecx, s.edx, s.ebx, s.esp, s.ebp, s.esi, s.edi]

/-- The words of the segment registers, from the stack pointer `a` on. -/
def segments (env : Env) (s : State) (a : UInt32) : List UInt32 :=
  [segWord env s.ds (a - 4).toNat, segWord env s.es (a - 4 - 4).toNat,
    segWord env s.fs (a - 4 - 4 - 4).toNat, segWord env s.gs (a - 4 - 4 - 4 - 4).toNat]

/-- The registers are on the stack, with a pointer to them, and the segments are the
kernel's. -/
theorem run_saveRegisters (s : State) :
    run env saveRegisters s =
      let saved := s.pushes (general s ++ segments env s (s.pushes (general s)).esp)
      { saved.push saved.esp with
        eax := UInt32.ofNat (s.eax.toNat / 65536 * 65536 + 0x10)
        ds := 0x10
        es := 0x10
        fs := 0x10
        gs := 0x10 } := by
  simp only [run, saveRegisters, List.foldl_cons, List.foldl_nil, exec, SegReg.set,
    toUInt16_movAx]
  simp [SegReg.get, State.push, State.pushes, general, segments, segWord]

theorem toNat_add_ofNat {x : UInt32} {n : ℕ} (h : x.toNat + n < 2 ^ 32) :
    (x + UInt32.ofNat n).toNat = x.toNat + n := by
  rw [UInt32.toNat_add, UInt32.toNat_ofNat', Nat.add_mod_mod, Nat.mod_eq_of_lt h]

/-- In memory, the registers and the address of the `struct regs` at `p`. -/
theorem run_saveRegisters_eq (hp : s.esp.toNat = p + 48) (h : 4 ≤ p) :
    run env saveRegisters s =
      { s with
        eax := UInt32.ofNat (s.eax.toNat / 65536 * 65536 + 0x10)
        esp := UInt32.ofNat (p - 4)
        ds := 0x10
        es := 0x10
        fs := 0x10
        gs := 0x10
        mem := pushWords s.mem (p + 48) ([s.eax, s.ecx, s.edx, s.ebx, s.esp, s.ebp, s.esi, s.edi,
          segWord env s.ds (p + 12), segWord env s.es (p + 8), segWord env s.fs (p + 4),
          segWord env s.gs p, UInt32.ofNat p]) } := by
  have hlt := s.esp.toNat_lt
  have hmod : ∀ n ≤ p + 48, (UInt32.ofNat n).toNat = n := fun n hn => by
    rw [UInt32.toNat_ofNat', Nat.mod_eq_of_lt (by omega)]
  have hsub : ∀ n ≤ p + 44, UInt32.ofNat (n + 4) - 4 = UInt32.ofNat n := fun n hn => by
    refine UInt32.toNat_inj.1 ?_
    rw [toNat_sub_four (by rw [hmod _ (by omega)]; exact Nat.le_add_left 4 n),
      hmod _ (by omega), hmod _ (by omega), Nat.add_sub_cancel]
  have hpushes : ∀ ws, 4 * ws.length ≤ 52 → s.pushes ws = { s with
      esp := UInt32.ofNat (p + 48 - 4 * ws.length), mem := pushWords s.mem (p + 48) ws } := by
    intro ws hws
    rw [pushes_eq (by omega), hp]
  have hgeneral : (s.pushes (general s)).esp = UInt32.ofNat (p + 16) := by
    rw [hpushes _ (by simp [general])]
    rfl
  have hsegments : segments env s (UInt32.ofNat (p + 16)) = [segWord env s.ds (p + 12),
      segWord env s.es (p + 8), segWord env s.fs (p + 4), segWord env s.gs p] := by
    rw [segments, hsub (p + 12) (by omega), hsub (p + 8) (by omega), hsub (p + 4) (by omega),
      hsub p (by omega), hmod _ (by omega), hmod _ (by omega), hmod _ (by omega), hmod _ (by omega)]
  have hsaved : (s.pushes (general s ++ segments env s (UInt32.ofNat (p + 16)))).esp =
      UInt32.ofNat p := by
    rw [hpushes _ (by simp [general, segments])]
    rfl
  have hpush : ∀ w, (s.pushes (general s ++ segments env s (UInt32.ofNat (p + 16)))).push w =
      s.pushes (general s ++ segments env s (UInt32.ofNat (p + 16)) ++ [w]) := fun w =>
    pushes_append _ [w] s
  simp only [run_saveRegisters, hgeneral, hsaved, hpush]
  rw [hpushes _ (by simp [general, segments]), hsegments]
  rfl

/-! ## Restoring -/

/-- The registers are those of the `struct regs` above the pointer to it. -/
theorem run_restoreRegisters (h : t.esp.toNat + 60 < 2 ^ 32) :
    run env restoreRegisters t =
      let r := regsAt t.mem (t.esp.toNat + 4)
      iret env
        { t with
          eax := r.eax
          ecx := r.ecx
          edx := r.edx
          ebx := r.ebx
          ebp := r.ebp
          esi := r.esi
          edi := r.edi
          ds := r.ds.toUInt16
          es := r.es.toUInt16
          fs := r.fs.toUInt16
          gs := r.gs.toUInt16
          esp := t.esp + 60 } := by
  have haddr : ∀ n ≤ 60, (t.esp.toNat + n) % 4294967296 = t.esp.toNat + n := fun n hn =>
    Nat.mod_eq_of_lt (by omega)
  simp [run, restoreRegisters, exec, SegReg.set, State.top, regsAt, UInt32.add_assoc,
    Nat.add_assoc, haddr]

/-- A `struct regs` in the order of its words. -/
def Regs.words (r : Regs) : List UInt32 :=
  [r.gs, r.fs, r.es, r.ds, r.edi, r.esi, r.ebp, r.esp, r.ebx, r.edx, r.ecx, r.eax, r.vector,
    r.errorCode, r.eip, r.cs, r.eflags]

theorem Regs.words_inj {r r' : Regs} : r.words = r'.words ↔ r = r' := by
  cases r
  cases r'
  simp [Regs.words]

theorem words_regsAt (m : Bytes) (p : ℕ) :
    (regsAt m p).words = (List.range 17).map fun i => wordAt m (p + 4 * i) :=
  rfl

/-- A `struct regs` that was pushed, with `outer` above it and `inner` below it. -/
theorem regsAt_pushWords {m : Bytes} {P : ℕ} (outer inner : List UInt32) (r : Regs)
    (h : 4 * (outer.length + 17 + inner.length) ≤ P) :
    regsAt (pushWords m P (outer ++ r.words.reverse ++ inner)) (P - 4 * (outer.length + 17)) =
      r := by
  have hword : ∀ i < 17, some (wordAt (pushWords m P (outer ++ r.words.reverse ++ inner))
      (P - 4 * (outer.length + 17) + 4 * i)) = r.words[i]? := by
    intro i hi
    have hlen : (outer ++ r.words.reverse ++ inner).length = outer.length + 17 + inner.length := by
      simp only [List.length_append, List.length_reverse]
      rfl
    have h := wordAt_pushWords (m := m) (outer ++ r.words.reverse ++ inner) (p := P)
      (i := inner.length + i) (by omega) (by omega)
    rw [hlen, show P - 4 * (outer.length + 17 + inner.length) + 4 * (inner.length + i) =
      P - 4 * (outer.length + 17) + 4 * i by omega] at h
    rw [h, List.reverse_append, List.getElem?_append_right (by rw [List.length_reverse]; omega),
      List.length_reverse, Nat.add_sub_cancel_left, List.reverse_append, List.reverse_reverse,
      List.getElem?_append_left (by exact hi)]
  refine Regs.words_inj.1 (List.ext_getElem? fun i => ?_)
  rcases Nat.lt_or_ge i 17 with hlt | hge
  · rw [words_regsAt, List.getElem?_map, List.getElem?_range hlt]
    exact hword i hlt
  · rw [List.getElem?_eq_none (by exact hge), List.getElem?_eq_none (by exact hge)]

end Cpu

end Yotos
