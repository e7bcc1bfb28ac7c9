import Yotos.Cpu.Gdt
import Yotos.Library.Latest

/-!
# Gates

`kernel/idt.c` and `syscall_install`: the interrupt descriptor table, and what the processor
makes of an interrupt. A gate that is not present cannot be entered, and an `int`
instruction enters a gate only from a privilege level that the gate allows.
-/

namespace Yotos

namespace Cpu

open Bytes Library

/-- `idt_set_descriptor`. -/
def idtSetDescriptor (vector : UInt8) (isr : UInt32) (flags : UInt8) (m : Bytes) : Bytes :=
  let descriptor := 8 * vector.toNat
  let m := store16 m descriptor (isr.toNat &&& 0xFFFF)
  let m := store16 m (descriptor + 2) 0x08
  let m := store8 m (descriptor + 5) flags
  let m := store16 m (descriptor + 6) (isr.toNat >>> 16)
  store8 m (descriptor + 4) 0

/-- The stubs of `cpu.asm`. -/
structure Stubs where
  isrStubTable : ℕ → UInt32
  irqStubTable : ℕ → UInt32
  syscallStub : UInt32

/-- A call of `idt_set_descriptor`. -/
structure IdtCall where
  vector : UInt8
  isr : UInt32
  flags : UInt8

def IdtCall.apply (m : Bytes) (c : IdtCall) : Bytes := idtSetDescriptor c.vector c.isr c.flags m

/-- The calls of `install_idt`: 32 exceptions and 16 interrupt lines. -/
def installIdt (stubs : Stubs) : List IdtCall :=
  (List.range 32).map (fun v => ⟨UInt8.ofNat v, stubs.isrStubTable v, 0x8E⟩) ++
    (List.range 16).map fun i => ⟨UInt8.ofNat (32 + i), stubs.irqStubTable i, 0x8E⟩

/-- The call of `syscall_install`. -/
def syscallInstall (stubs : Stubs) : IdtCall := ⟨0x80, stubs.syscallStub, 0xEF⟩

/-! ## The processor -/

/-- A gate as the processor sees it. -/
structure Gate where
  offset : ℕ
  selector : ℕ
  attributes : UInt8
  deriving DecidableEq

namespace Gate

def present (g : Gate) : Bool := g.attributes.toNat / 128 = 1

def dpl (g : Gate) : ℕ := g.attributes.toNat / 32 % 4

/-- Interrupts are off behind the gate: a trap gate leaves them on. -/
def clearsIf (g : Gate) : Bool := g.attributes.toNat % 16 = 14

end Gate

/-- Gate `v` of a table. -/
def gate (m : Bytes) (v : ℕ) : Gate where
  offset := load16 m (8 * v) + 65536 * load16 m (8 * v + 6)
  selector := load16 m (8 * v + 2)
  attributes := m (8 * v + 5)

/-- Where an interrupt comes from. -/
inductive Source
  | hardware
  | software
  deriving DecidableEq

/-- The gate through which interrupt `v` enters the kernel from privilege level `cpl`. -/
def enter (m : Bytes) (source : Source) (cpl v : ℕ) : Option Gate :=
  let g := gate m v
  if g.present = false then none
  else if source = .software ∧ g.dpl < cpl then none
  else some g

/-! ## The table -/

def IdtCall.entry (c : IdtCall) : ℕ × Gate := (c.vector.toNat, ⟨c.isr.toNat, 0x08, c.flags⟩)

variable {m : Bytes} {vector : UInt8} {isr : UInt32} {flags : UInt8} {v : ℕ}

/-- A gate reads back as it was written. -/
theorem gate_idtSetDescriptor_self :
    gate (idtSetDescriptor vector isr flags m) vector.toNat = ⟨isr.toNat, 0x08, flags⟩ := by
  have hlt := isr.toNat_lt
  have hlow : isr.toNat &&& 0xFFFF = isr.toNat % 65536 := Nat.and_two_pow_sub_one_eq_mod _ 16
  have hhigh : isr.toNat >>> 16 = isr.toNat / 65536 := Nat.shiftRight_eq_div_pow _ 16
  simp only [gate, idtSetDescriptor, load16, store16, store8, Nat.add_assoc, Nat.reduceAdd,
    Nat.add_right_inj, Nat.left_eq_add, Nat.add_eq_left, Nat.reduceEqDiff, if_true, if_false,
    reduceCtorEq, UInt8.toNat_ofNat', hlow, hhigh]
  congr 1
  omega

theorem gate_idtSetDescriptor_of_ne (h : v ≠ vector.toNat) :
    gate (idtSetDescriptor vector isr flags m) v = gate m v := by
  have hbyte : ∀ x, x < 8 * vector.toNat ∨ 8 * vector.toNat + 8 ≤ x →
      idtSetDescriptor vector isr flags m x = m x := by
    intro x hx
    rw [idtSetDescriptor, store8_of_ne _ _ (by omega), store16_of_apart _ _ (by omega),
      store8_of_ne _ _ (by omega), store16_of_apart _ _ (by omega), store16_of_apart _ _ (by omega)]
  have hword : ∀ x, (∀ i < 2, x + i < 8 * vector.toNat ∨ 8 * vector.toNat + 8 ≤ x + i) →
      load16 (idtSetDescriptor vector isr flags m) x = load16 m x := fun x hx =>
    load16_eq_iff.2 fun i hi => hbyte _ (hx i hi)
  rw [gate, gate, hword _ (by omega), hword _ (by omega), hword _ (by omega), hbyte _ (by omega)]

/-- Each gate is that of the last call for it. -/
theorem gate_calls (calls : List IdtCall) (m : Bytes) (v : ℕ) :
    gate (calls.foldl IdtCall.apply m) v =
      (latest (calls.map IdtCall.entry) v).getD (gate m v) := by
  induction calls generalizing m with
  | nil => rfl
  | cons c calls ih =>
      have hcons : (c :: calls).map IdtCall.entry = [c.entry] ++ calls.map IdtCall.entry := rfl
      rw [List.foldl_cons, ih, hcons, getD_latest_append]
      congr 1
      by_cases hv : v = c.vector.toNat
      · subst hv
        rw [IdtCall.apply, gate_idtSetDescriptor_self, IdtCall.entry, latest_singleton_self]
        rfl
      · rw [IdtCall.apply, gate_idtSetDescriptor_of_ne hv, IdtCall.entry,
          latest_singleton_of_ne (Ne.symm hv)]
        rfl

/-- The gates of `kmain`. -/
def bootGate (stubs : Stubs) (v : ℕ) : Gate :=
  if v < 32 then ⟨(stubs.isrStubTable v).toNat, 0x08, 0x8E⟩
  else if v < 48 then ⟨(stubs.irqStubTable (v - 32)).toNat, 0x08, 0x8E⟩
  else if v = 0x80 then ⟨stubs.syscallStub.toNat, 0x08, 0xEF⟩
  else ⟨0, 0, 0⟩

/-- The table of `kmain`, where memory is zero before. -/
def bootIdt (stubs : Stubs) : Bytes :=
  (installIdt stubs ++ [syscallInstall stubs]).foldl IdtCall.apply fun _ => 0

theorem latest_map_range {β : Type*} (n k : ℕ) (f : ℕ → β) (hn : k + n ≤ 256) (v : ℕ) :
    latest ((List.range n).map fun i => ((UInt8.ofNat (k + i)).toNat, f i)) v =
      if k ≤ v ∧ v < k + n then some (f (v - k)) else none := by
  induction n with
  | zero => rw [if_neg (by omega)]; rfl
  | succ n ih =>
      have hlast : (UInt8.ofNat (k + n)).toNat = k + n := by
        rw [UInt8.toNat_ofNat', Nat.mod_eq_of_lt (by omega)]
      rw [List.range_succ, List.map_append, List.map_singleton, latest_append, ih (by omega), hlast]
      by_cases hv : k + n = v
      · subst hv
        rw [latest_singleton_self, if_neg (by omega), if_pos (by omega), Nat.add_sub_cancel_left]
        rfl
      · rw [latest_singleton_of_ne hv, Option.none_or]
        by_cases hin : k ≤ v ∧ v < k + n
        · rw [if_pos hin, if_pos (by omega)]
        · rw [if_neg hin, if_neg (by omega)]

theorem gate_bootIdt (stubs : Stubs) (v : ℕ) : gate (bootIdt stubs) v = bootGate stubs v := by
  have hisr : (List.range 32).map (IdtCall.entry ∘ fun v => (⟨UInt8.ofNat v,
      stubs.isrStubTable v, 0x8E⟩ : IdtCall)) =
      (List.range 32).map fun i => ((UInt8.ofNat (0 + i)).toNat,
        (⟨(stubs.isrStubTable i).toNat, 0x08, 0x8E⟩ : Gate)) := by
    simp only [Nat.zero_add]
    rfl
  have hirq : (List.range 16).map (IdtCall.entry ∘ fun i => (⟨UInt8.ofNat (32 + i),
      stubs.irqStubTable i, 0x8E⟩ : IdtCall)) =
      (List.range 16).map fun i => ((UInt8.ofNat (32 + i)).toNat,
        (⟨(stubs.irqStubTable i).toNat, 0x08, 0x8E⟩ : Gate)) := rfl
  rw [bootIdt, gate_calls, installIdt, List.map_append, List.map_append, List.map_map,
    List.map_map, hisr, hirq, List.map_singleton, latest_append, latest_append,
    latest_map_range 32 0 _ (by simp), latest_map_range 16 32 _ (by simp)]
  have hsyscall : (syscallInstall stubs).entry = (128, ⟨stubs.syscallStub.toNat, 0x08, 0xEF⟩) := rfl
  rw [hsyscall, bootGate]
  rcases Nat.lt_or_ge v 32 with hlt | hge
  · rw [latest_singleton_of_ne (by omega), if_neg (by omega), if_pos (by omega), if_pos hlt]
    rfl
  rcases Nat.lt_or_ge v 48 with hlt' | hge'
  · rw [latest_singleton_of_ne (by omega), if_pos (by omega), if_neg (by omega), if_neg (by omega),
      if_pos hlt']
    rfl
  by_cases hv : v = 128
  · subst hv
    rw [latest_singleton_self]
    rfl
  · rw [latest_singleton_of_ne (Ne.symm hv), if_neg (by omega), if_neg (by omega),
      if_neg (by omega), if_neg (by omega), if_neg hv]
    rfl

/-- What enters the kernel: every exception and every line, through its own stub and with
interrupts off, and `int 0x80` with interrupts left on. A program in ring 3 can enter
through nothing else. -/
theorem enter_bootIdt (stubs : Stubs) (v cpl : ℕ) :
    enter (bootIdt stubs) .hardware cpl v =
        (if v < 48 ∨ v = 0x80 then some (bootGate stubs v) else none) ∧
      (enter (bootIdt stubs) .software 3 v =
        if v = 0x80 then some (bootGate stubs v) else none) ∧
      ∀ g, enter (bootIdt stubs) .hardware cpl v = some g →
        g.selector = 0x08 ∧ (g.clearsIf = true ↔ v < 48) := by
  have hhard : enter (bootIdt stubs) .hardware cpl v =
      if v < 48 ∨ v = 0x80 then some (bootGate stubs v) else none := by
    rw [enter, gate_bootIdt, bootGate]
    split_ifs <;> simp_all [Gate.present] <;> omega
  have hsoft : enter (bootIdt stubs) .software 3 v =
      if v = 0x80 then some (bootGate stubs v) else none := by
    rw [enter, gate_bootIdt, bootGate]
    split_ifs <;> simp_all [Gate.present, Gate.dpl]
  refine ⟨hhard, hsoft, fun g hg => ?_⟩
  rw [hhard] at hg
  split_ifs at hg with hin
  obtain rfl := Option.some.inj hg
  rw [bootGate]
  split_ifs <;> simp_all [Gate.clearsIf]
  omega

end Cpu

end Yotos
