import Yotos.Library.Outcome
import Yotos.Process.Machine
import Yotos.Terminal.Basic
import Yotos.Vmm.User

/-!
# What a system call lets a program see

`syscall_handler` with `SYS_WRITE`, over the page tables, the text terminal and the
machine of processes and interrupts. `sys_write` reads its buffer with the rights of
the kernel, so every page that is present can be printed. Two kernels that look the same
from ring 3 answer a call in the same way exactly when the call is not `SYS_WRITE`, or
ring 3 can read the whole buffer itself.

The frame of the text buffer is a device: what is read there are the cells of the
terminal. A page fault stops the kernel.
-/

namespace Yotos

namespace Syscall

open Bytes Library
open Process (Machine)
open Vmm

/-- `struct regs`, as far as the call depends on it: three registers, and the interrupt
flag in the flags that the gate pushed. -/
structure Regs where
  eax : UInt32
  ebx : UInt32
  ecx : UInt32
  interruptFlag : Bool

/-- `output` is not part of the kernel: the characters given to `terminal_putchar`. -/
structure Kernel where
  vmm : Vmm
  terminal : Terminal
  machine : Machine
  output : List UInt8

/-! ### Memory with the text buffer in it -/

/-- The frame of the text buffer, at `0xB8000`. -/
def screenFrame : ℕ := 0xB8

/-- What is found at a physical address: a byte of the text buffer, or of memory. -/
inductive Cell
  | screen (offset : ℕ)
  | byte (x : UInt8)
  deriving DecidableEq

def cellAt (m : Bytes) (phys : ℕ) : Cell :=
  if phys / 4096 = screenFrame then .screen (phys % 4096) else .byte (m phys)

/-- A cell of the terminal has its character in the low byte and its colour in the high
byte. -/
def Cell.read (t : Terminal) : Cell → UInt8
  | .screen offset =>
      if offset % 2 = 0 then (t.buffer (offset / 2)).toUInt8
      else (t.buffer (offset / 2) >>> 8).toUInt8
  | .byte x => x

/-! ### The call -/

/-- `SYS_WRITE`. -/
def sysWriteNumber : UInt32 := 2

/-- The body of the loop of `sys_write`: a load with the rights of the kernel. -/
def putFrom (virt : ℕ) (k : Kernel) : Outcome Kernel Unit :=
  match mmu k.vmm.memory k.vmm.cr3 virt with
  | none => .stuck k
  | some phys =>
      let c := (cellAt k.vmm.memory phys).read k.terminal
      .done () { k with terminal := k.terminal.terminalPutchar c, output := k.output ++ [c] }

/-- The loop of `sys_write`, with `n` characters left from `buf` on. -/
def sysWrite : (buf n : ℕ) → Kernel → Outcome Kernel Unit
  | _, 0, k => .done () k
  | buf, n + 1, k => (putFrom (buf % 2 ^ 32) k).bind fun _ k => sysWrite (buf + 1) n k

/-- `syscall_handler`. The calls that print nothing are those of the machine. -/
def syscallHandler (r : Regs) (k : Kernel) : Outcome Kernel Unit :=
  (if r.eax = sysWriteNumber then sysWrite r.ebx.toNat r.ecx.toNat k else .done () k).bind
    fun _ k => .done () { k with
      machine := Process.syscallHandler r.eax r.ebx r.interruptFlag k.machine }

/-! ### What ring 3 sees -/

/-- What ring 3 finds at `virt`, `none` for an access it is denied. -/
def userCell (s : Vmm) (virt : ℕ) : Option Cell :=
  (mmuUser s.memory s.cr3 virt).map (cellAt s.memory)

/-- Two kernels that agree on all pages accessible to ring 3, on the keyboard, the timer
and the terminal. -/
structure Agree (k k' : Kernel) : Prop where
  user : ∀ v < 2 ^ 32, userCell k'.vmm v = userCell k.vmm v
  keyboard : k'.machine.keyboard = k.machine.keyboard
  timer : k'.machine.timerTicks = k.machine.timerTicks
  terminal : k'.terminal = k.terminal

/-- The output of a call from `k` on, the terminal after it, and, unless a page fault
stopped the kernel, what happens to the caller and the register it gets back. -/
def observed (r : Regs) (k : Kernel) :
    List UInt8 × Terminal × Option (Process.Control × Option UInt32) :=
  match syscallHandler r { k with output := [] } with
  | .done _ t => (t.output, t.terminal, some (t.machine.control,
      if t.machine.control = .user then some t.machine.userEax else none))
  | .stuck t => (t.output, t.terminal, none)

/-- The call tells nothing about the kernel that ring 3 cannot see itself. -/
def Noninterfering (r : Regs) (k : Kernel) : Prop := ∀ k', Agree k k' → observed r k' = observed r k

/-- Ring 3 can read the buffer. -/
def BufferReadable (r : Regs) (s : Vmm) : Prop :=
  ∀ i < r.ecx.toNat, (mmuUser s.memory s.cr3 ((r.ebx.toNat + i) % 2 ^ 32)).isSome = true

instance (r : Regs) (s : Vmm) : Decidable (BufferReadable r s) :=
  inferInstanceAs (Decidable (∀ _ < _, _))

variable {k k' : Kernel} {r : Regs} {s : Vmm} {m : Bytes} {d e p v n buf : ℕ}

/-! ### Kernels that agree -/

/-- Memory that differs in tables only, and shows ring 3 the same frames. -/
theorem userCell_congr (h : AddressSpace s d)
    (hm : ∀ g x, x < 4096 → ¬ TableFrame s d g → m (g * 4096 + x) = s.memory (g * 4096 + x))
    (huser : ∀ q < 2 ^ 20, userFrame m d q = userFrame s.memory d q) (hv : v < 2 ^ 32) :
    userCell { s with memory := m } v = userCell s v := by
  have hpage : v / 4096 < 2 ^ 20 := by omega
  simp only [userCell, h.cr3, mmuUser_eq, huser _ hpage, Option.map_map]
  cases hf : userFrame s.memory d (v / 4096) with
  | none => rfl
  | some f =>
      simp only [Option.map_some, Function.comp_apply, Option.some.injEq, cellAt]
      rw [hm f _ (Nat.mod_lt _ (by decide)) (h.not_tableFrame_of_user hpage hf)]

/-- A byte of a page that ring 3 is denied may change. -/
theorem userCell_store8 (h : AddressSpace s d) (hp : p < windowPage)
    (he : lookup s.memory d p = some e) (hdenied : userFrame s.memory d p = none) {o : ℕ}
    (ho : o < 4096) (x : UInt8) (hv : v < 2 ^ 32) :
    userCell { s with memory := store8 s.memory (frameOf e * 4096 + o) x } v = userCell s v := by
  have hpage : v / 4096 < 2 ^ 20 := by omega
  have htables : ∀ g y, y < 4096 → TableFrame s d g →
      store8 s.memory (frameOf e * 4096 + o) x (g * 4096 + y) = s.memory (g * 4096 + y) := by
    intro g y hy hg
    refine store8_of_ne _ _ fun heq => h.not_tableFrame hp he ?_
    obtain rfl : g = frameOf e := by omega
    exact hg
  simp only [userCell, h.cr3, mmuUser_eq, h.userFrame_withMemory htables hpage, Option.map_map]
  cases hf : userFrame s.memory d (v / 4096) with
  | none => rfl
  | some f =>
      obtain ⟨hwin, e', he', hframe⟩ := h.lookup_of_user hpage hf
      have hne : f ≠ frameOf e := by
        intro heq
        rw [h.owned.distinct _ hwin p hp e' e he' he (hframe.trans heq), hdenied] at hf
        cases hf
      simp only [Option.map_some, Function.comp_apply, Option.some.injEq, cellAt]
      rw [store8_of_ne _ _ (by omega)]

theorem putFrom_of_mmu {phys : ℕ} (h : mmu k.vmm.memory k.vmm.cr3 v = some phys) :
    putFrom v k = .done () { k with
      terminal := k.terminal.terminalPutchar ((cellAt k.vmm.memory phys).read k.terminal)
      output := k.output ++ [(cellAt k.vmm.memory phys).read k.terminal] } := by
  rw [putFrom, h]

/-- The two kernels agree, and printed the same. -/
structure Twin (k k' : Kernel) : Prop extends Agree k k' where
  output : k'.output = k.output

/-- A character that ring 3 can read. -/
theorem Twin.putFrom (h : Twin k k') (hv : v < 2 ^ 32)
    (hread : (mmuUser k.vmm.memory k.vmm.cr3 v).isSome = true) :
    ∃ t t', putFrom v k = .done () t ∧ putFrom v k' = .done () t' ∧ Twin t t' ∧
      t.vmm = k.vmm ∧ t'.vmm = k'.vmm ∧ t.machine = k.machine ∧ t'.machine = k'.machine := by
  obtain ⟨phys, hphys⟩ := Option.isSome_iff_exists.1 hread
  have hcell := h.user v hv
  rw [userCell, userCell, hphys, Option.map_some, Option.map_eq_some_iff] at hcell
  obtain ⟨phys', hphys', hcell⟩ := hcell
  refine ⟨_, _, putFrom_of_mmu (mmu_of_mmuUser hphys), putFrom_of_mmu (mmu_of_mmuUser hphys'),
    ⟨⟨h.user, h.keyboard, h.timer, ?_⟩, ?_⟩, rfl, rfl, rfl, rfl⟩
  · dsimp only
    rw [h.terminal, hcell]
  · dsimp only
    rw [h.terminal, h.output, hcell]

/-- So is the whole buffer. -/
theorem Twin.sysWrite (h : Twin k k') (hread : ∀ i < n,
      (mmuUser k.vmm.memory k.vmm.cr3 ((buf + i) % 2 ^ 32)).isSome = true) :
    ∃ t t', sysWrite buf n k = .done () t ∧ sysWrite buf n k' = .done () t' ∧ Twin t t' ∧
      t.vmm = k.vmm ∧ t'.vmm = k'.vmm ∧ t.machine = k.machine ∧ t'.machine = k'.machine := by
  induction n generalizing buf k k' with
  | zero => exact ⟨k, k', rfl, rfl, h, rfl, rfl, rfl, rfl⟩
  | succ n ih =>
      obtain ⟨t, t', ht, ht', htwin, hvmm, hvmm', hmachine, hmachine'⟩ :=
        h.putFrom (Nat.mod_lt buf (by decide)) (hread 0 (Nat.zero_lt_succ n))
      obtain ⟨u, u', hu, hu', hrest⟩ := ih htwin (fun i hi => show
          (mmuUser t.vmm.memory t.vmm.cr3 ((buf + 1 + i) % 2 ^ 32)).isSome = true by
        rw [hvmm, Nat.add_assoc, Nat.add_comm 1]
        exact hread (i + 1) (Nat.succ_lt_succ hi))
      rw [hvmm, hvmm', hmachine, hmachine'] at hrest
      refine ⟨u, u', ?_, ?_, hrest⟩
      · rw [Syscall.sysWrite, ht, Outcome.bind_done, hu]
      · rw [Syscall.sysWrite, ht', Outcome.bind_done, hu']

/-- The calls of the machine read the keyboard and the timer only. -/
theorem syscallHandler_congr {s s' : Machine} (hkeyboard : s'.keyboard = s.keyboard)
    (htimer : s'.timerTicks = s.timerTicks) (eax ebx : UInt32) (savedIf : Bool) :
    (Process.syscallHandler eax ebx savedIf s').control =
        (Process.syscallHandler eax ebx savedIf s).control ∧
      ((Process.syscallHandler eax ebx savedIf s).control = .user →
        (Process.syscallHandler eax ebx savedIf s').userEax =
          (Process.syscallHandler eax ebx savedIf s).userEax) := by
  unfold Process.syscallHandler
  split_ifs
  · exact ⟨rfl, fun hc => by cases hc⟩
  · rw [hkeyboard]
    exact ⟨rfl, fun _ => rfl⟩
  · rw [htimer]
    exact ⟨rfl, fun hc => by cases hc⟩
  · exact ⟨rfl, fun _ => rfl⟩

/-! ### A buffer that ring 3 cannot read -/

theorem sysWrite_add (i : ℕ) : sysWrite buf (i + n) k =
    (sysWrite buf i k).bind fun _ k => sysWrite (buf + i) n k := by
  induction i generalizing buf k with
  | zero => rw [Nat.zero_add]; rfl
  | succ i ih =>
      rw [Nat.succ_add, sysWrite, sysWrite]
      cases putFrom (buf % 2 ^ 32) k with
      | done _ t =>
          rw [Outcome.bind_done, Outcome.bind_done, ih, Nat.add_assoc, Nat.add_comm 1]
      | stuck t => rfl

theorem output_sysWrite (buf n : ℕ) (k : Kernel) :
    k.output.length ≤ (sysWrite buf n k).state.output.length := by
  induction n generalizing buf k with
  | zero => exact le_rfl
  | succ n ih =>
      rw [sysWrite, putFrom]
      cases mmu k.vmm.memory k.vmm.cr3 (buf % 2 ^ 32) with
      | none => exact le_rfl
      | some phys =>
          refine le_trans ?_ (ih _ _)
          rw [List.length_append]
          exact Nat.le_add_right _ _

/-- The number of characters printed tells whether the first page is there. -/
theorem output_sysWrite_succ (buf n : ℕ) (k : Kernel) :
    k.output.length < (sysWrite buf (n + 1) k).state.output.length ↔
      (mmu k.vmm.memory k.vmm.cr3 (buf % 2 ^ 32)).isSome = true := by
  rw [sysWrite, putFrom]
  cases mmu k.vmm.memory k.vmm.cr3 (buf % 2 ^ 32) with
  | none => simp [Outcome.state]
  | some phys =>
      refine iff_of_true (lt_of_lt_of_le ?_ (output_sysWrite _ _ _)) rfl
      rw [List.length_append, List.length_singleton]
      exact Nat.lt_succ_self _

/-! ### When a call tells nothing -/

theorem output_observed (hwrite : r.eax = sysWriteNumber) (k : Kernel) :
    (observed r k).1 =
      (sysWrite r.ebx.toNat r.ecx.toNat { k with output := [] }).state.output := by
  rw [observed, syscallHandler, if_pos hwrite]
  cases sysWrite r.ebx.toNat r.ecx.toNat { k with output := [] } with
  | done _ t => rfl
  | stuck t => rfl

theorem noninterfering_of_readable (h : r.eax ≠ sysWriteNumber ∨ BufferReadable r k.vmm) :
    Noninterfering r k := by
  intro k' hagree
  have htwin : Twin { k with output := [] } { k' with output := [] } :=
    ⟨⟨hagree.user, hagree.keyboard, hagree.timer, hagree.terminal⟩, rfl⟩
  obtain ⟨t, t', ht, ht', hend, -, -, hmachine, hmachine'⟩ :
      ∃ t t', (if r.eax = sysWriteNumber then
          sysWrite r.ebx.toNat r.ecx.toNat { k with output := [] }
        else .done () { k with output := [] }) = .done () t ∧
        (if r.eax = sysWriteNumber then
          sysWrite r.ebx.toNat r.ecx.toNat { k' with output := [] }
        else .done () { k' with output := [] }) = .done () t' ∧ Twin t t' ∧
        t.vmm = k.vmm ∧ t'.vmm = k'.vmm ∧ t.machine = k.machine ∧ t'.machine = k'.machine := by
    by_cases hwrite : r.eax = sysWriteNumber
    · rw [if_pos hwrite, if_pos hwrite]
      exact htwin.sysWrite (h.resolve_left (not_not.2 hwrite))
    · rw [if_neg hwrite, if_neg hwrite]
      exact ⟨_, _, rfl, rfl, htwin, rfl, rfl, rfl, rfl⟩
  obtain ⟨hcontrol, heax⟩ :=
    syscallHandler_congr hend.keyboard hend.timer r.eax r.ebx r.interruptFlag
  rw [observed, observed, syscallHandler, syscallHandler, ht, ht', Outcome.bind_done,
    Outcome.bind_done]
  dsimp only
  rw [hend.output, hend.terminal, hcontrol]
  split_ifs with huser
  · rw [heax huser]
  · rfl

/-- A call tells nothing exactly when it is not `SYS_WRITE`, or ring 3 can read the whole
buffer. -/
theorem noninterfering_iff (r : Regs) (k : Kernel) (d : ℕ) (hspace : AddressSpace k.vmm d) :
    Noninterfering r k ↔ r.eax ≠ sysWriteNumber ∨ BufferReadable r k.vmm := by
  refine ⟨fun hno => ?_, noninterfering_of_readable⟩
  by_contra hcon
  simp only [not_or, not_not, BufferReadable, not_forall] at hcon
  obtain ⟨hwrite, hdenied⟩ := hcon
  -- the first character that ring 3 cannot read
  classical
  obtain ⟨i, hfind⟩ : ∃ i, i = Nat.find hdenied := ⟨_, rfl⟩
  obtain ⟨hi, hv⟩ := hfind ▸ Nat.find_spec hdenied
  have hread : ∀ j < i,
      (mmuUser k.vmm.memory k.vmm.cr3 ((r.ebx.toNat + j) % 2 ^ 32)).isSome = true := by
    intro j hj
    have hmin := Nat.find_min hdenied (hfind ▸ hj)
    simp only [exists_prop, not_and, not_not] at hmin
    exact hmin (hj.trans hi)
  obtain ⟨n, hn⟩ : ∃ n, r.ecx.toNat = i + (n + 1) := ⟨r.ecx.toNat - i - 1, by omega⟩
  obtain ⟨v, hvdef⟩ : ∃ v, v = (r.ebx.toNat + i) % 2 ^ 32 := ⟨_, rfl⟩
  have hvlt : v < 2 ^ 32 := hvdef ▸ Nat.mod_lt _ (by decide)
  rw [← hvdef, hspace.cr3, mmuUser_eq, Option.isSome_map, Option.not_isSome_iff_eq_none] at hv
  obtain ⟨m, hflip⟩ := hspace.exists_flipped (show v / 4096 < 2 ^ 20 by omega) hv
  obtain ⟨k', hk'⟩ : ∃ k' : Kernel, k' = { k with vmm := { k.vmm with memory := m } } := ⟨_, rfl⟩
  have hagree : Agree k k' := by
    rw [hk']
    exact ⟨fun u hu => userCell_congr hspace hflip.bytes hflip.user hu, rfl, rfl, rfl⟩
  have hsame := congrArg (List.length ∘ Prod.fst) (hno k' hagree)
  rw [Function.comp_apply, Function.comp_apply, output_observed hwrite, output_observed hwrite, hn,
    sysWrite_add, sysWrite_add] at hsame
  have htwin : Twin { k with output := [] } { k' with output := [] } :=
    ⟨⟨hagree.user, hagree.keyboard, hagree.timer, hagree.terminal⟩, rfl⟩
  obtain ⟨t, t', ht, ht', hend, hvmm, hvmm', -⟩ := htwin.sysWrite hread
  rw [ht, ht', Outcome.bind_done, Outcome.bind_done] at hsame
  have hpresent : (mmu m k.vmm.cr3 v).isSome = true ↔
      (mmu k.vmm.memory k.vmm.cr3 v).isSome = true := by
    have hleft := output_sysWrite_succ (r.ebx.toNat + i) n t'
    have hright := output_sysWrite_succ (r.ebx.toNat + i) n t
    rw [hvmm', ← hvdef, hk', hend.output, hsame] at hleft
    rw [hvmm, ← hvdef] at hright
    exact hleft.symm.trans hright
  rw [hspace.cr3, mmu_eq, mmu_eq, Option.isSome_map, Option.isSome_map, hflip.flip,
    ← Option.not_isSome_iff_eq_none] at hpresent
  exact not_iff_self hpresent

/-! ### On the small machine -/

/-- The small machine with a blank screen, before the first process. -/
def smallKernel (vmm : Vmm) : Kernel where
  vmm := vmm
  terminal :=
    { row := 0
      column := 0
      color := Terminal.defaultColor
      buffer := fun _ => Terminal.vgaEntry 0x20 Terminal.defaultColor
      written := [] }
  machine := Process.initial
  output := []

/-- `SYS_WRITE` for one character in the kernel's pages. -/
def writeKernelByte : Regs := ⟨sysWriteNumber, 0x200000, 1, true⟩

/-- `SYS_WRITE` for two characters in the page of a program. -/
def writeUserBytes : Regs := ⟨sysWriteNumber, 0x500000, 2, true⟩

/-- `SYS_READKEY` tells nothing, nor does `SYS_WRITE` for a page of the program; for a page
of the kernel it does. -/
theorem noninterfering_small : ∃ vmm, vmmAllocPage 0x500000 userFlags smallVmm =
      some (0x500000, vmm) ∧
    Noninterfering ⟨Process.sysReadkey, 0x200000, 1, true⟩ (smallKernel smallVmm) ∧
    Noninterfering writeUserBytes (smallKernel vmm) ∧
    ¬ Noninterfering writeKernelByte (smallKernel smallVmm) := by
  obtain ⟨⟨v, vmm⟩, hcall, rfl, hreadable⟩ : ∃ r, vmmAllocPage 0x500000 userFlags smallVmm =
      some r ∧ r.1 = 0x500000 ∧ BufferReadable writeUserBytes r.2 :=
    ⟨_, rfl, by decide +kernel, by decide +kernel⟩
  have hspace : AddressSpace vmm 1024 :=
    addressSpace_small.of_vmmAllocPage (by decide) (by decide) hcall
  refine ⟨vmm, hcall, ?_, ?_, fun h => ?_⟩
  · exact (noninterfering_iff _ _ 1024 addressSpace_small).2 (Or.inl (by decide))
  · exact (noninterfering_iff _ _ 1024 hspace).2 (Or.inr hreadable)
  · exact absurd ((noninterfering_iff _ _ 1024 addressSpace_small).1 h) (by decide +kernel)

/-- Two kernels that differ in one byte of a kernel page print different characters. -/
theorem not_forall_observed_eq : ¬ ∀ (r : Regs) (k k' : Kernel) (d d' : ℕ),
    AddressSpace k.vmm d → AddressSpace k'.vmm d' → Agree k k' → observed r k' = observed r k := by
  intro hall
  have hentry : lookup smallVmm.memory 1024 0x200 = some 0x200003 := by decide +kernel
  have hspace' : AddressSpace
      { smallVmm with memory := store8 smallVmm.memory 0x200000 0x41 } 1024 :=
    (addressSpace_small.store8 (v := 0x200000) (by decide) hentry 0x41).2.1
  have hagree : Agree (smallKernel smallVmm)
      (smallKernel { smallVmm with memory := store8 smallVmm.memory 0x200000 0x41 }) :=
    ⟨fun v hv => userCell_store8 addressSpace_small (by decide) hentry (by decide +kernel)
      (show 0 < 4096 by decide) 0x41 hv, rfl, rfl, rfl⟩
  have hsame := congrArg Prod.fst
    (hall writeKernelByte _ _ 1024 1024 addressSpace_small hspace' hagree)
  have hleft : (observed writeKernelByte
      (smallKernel { smallVmm with memory := store8 smallVmm.memory 0x200000 0x41 })).1 =
      [0x41] := by
    decide +kernel
  have hright : (observed writeKernelByte (smallKernel smallVmm)).1 = [0] := by decide +kernel
  rw [hleft, hright] at hsame
  exact absurd hsame (by decide)

end Syscall

end Yotos
