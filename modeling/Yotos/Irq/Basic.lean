import Mathlib.Data.Nat.Notation

/-!
# Interrupt lines

`kernel/irq.c`: the table of handlers and the mask registers of the two 8259A. A
controller is modelled by its mask register and its initialization sequence: a command
with bit 4 starts it, the words that follow come in through the data port, and only
after the last of them a write to the data port sets the mask. Reading the data port
gives the mask. A handler is its address, `0` standing for no handler.
-/

namespace Yotos

namespace Irq

/-- An initialization word after the first one. -/
inductive Icw where
  | vector
  | cascade
  | mode
  deriving DecidableEq

/-- One 8259A. -/
structure Pic where
  mask : BitVec 8
  vector : BitVec 8
  cascade : BitVec 8
  mode : BitVec 8
  pending : List Icw
  deriving DecidableEq

namespace Pic

/-- `ICW1_INIT` starts the initialization, which clears the mask; the other commands
leave the mask alone. -/
def command (p : Pic) (value : BitVec 8) : Pic :=
  if value &&& 0x10 != 0 then
    { p with
      mask := 0
      pending := .vector :: ((if value &&& 0x02 == 0 then [.cascade] else []) ++
        if value &&& 0x01 != 0 then [.mode] else []) }
  else p

def data (p : Pic) (value : BitVec 8) : Pic :=
  match p.pending with
  | [] => { p with mask := value }
  | .vector :: rest => { p with vector := value, pending := rest }
  | .cascade :: rest => { p with cascade := value, pending := rest }
  | .mode :: rest => { p with mode := value, pending := rest }

end Pic

end Irq

/-- The table `irq_handlers` and the two controllers. -/
structure Irq where
  handlers : ℕ → UInt32
  master : Irq.Pic
  slave : Irq.Pic

namespace Irq

/-- `PIC1_COMMAND`. -/
def pic1Command : UInt16 := 0x20

/-- `PIC1_DATA`. -/
def pic1Data : UInt16 := 0x21

/-- `PIC2_COMMAND`. -/
def pic2Command : UInt16 := 0xA0

/-- `PIC2_DATA`. -/
def pic2Data : UInt16 := 0xA1

def outb (port : UInt16) (value : BitVec 8) (s : Irq) : Irq :=
  if port = pic1Command then { s with master := s.master.command value }
  else if port = pic1Data then { s with master := s.master.data value }
  else if port = pic2Command then { s with slave := s.slave.command value }
  else if port = pic2Data then { s with slave := s.slave.data value }
  else s

/-- `inb` of a data port. -/
def inb (port : UInt16) (s : Irq) : BitVec 8 :=
  if port = pic1Data then s.master.mask else s.slave.mask

/-- `PIC_remap`. -/
def picRemap (offset1 offset2 : BitVec 8) (s : Irq) : Irq :=
  let s := outb pic1Command (0x10 ||| 0x01) s
  let s := outb pic2Command (0x10 ||| 0x01) s
  let s := outb pic1Data offset1 s
  let s := outb pic2Data offset2 s
  let s := outb pic1Data (1#8 <<< 2) s
  let s := outb pic2Data 2 s
  let s := outb pic1Data 0x01 s
  let s := outb pic2Data 0x01 s
  -- mask both
  let s := outb pic1Data 0xFF s
  outb pic2Data 0xFF s

/-- `IRQ_set_mask`. -/
def irqSetMask (irqLine : UInt8) (s : Irq) : Irq :=
  if irqLine < 8 then outb pic1Data (inb pic1Data s ||| 1#8 <<< irqLine.toNat) s
  else if irqLine < 16 then
    outb pic2Data (inb pic2Data s ||| 1#8 <<< (irqLine - 8).toNat) s
  else s

/-- `IRQ_clear_mask`. -/
def irqClearMask (irqLine : UInt8) (s : Irq) : Irq :=
  if irqLine < 8 then outb pic1Data (inb pic1Data s &&& ~~~(1#8 <<< irqLine.toNat)) s
  else if irqLine < 16 then
    outb pic2Data (inb pic2Data s &&& ~~~(1#8 <<< (irqLine - 8).toNat)) s
  else s

def irqInstallHandler (irq : UInt8) (handler : UInt32) (s : Irq) : Irq :=
  if 16 ≤ irq then s
  else
    irqClearMask irq
      { s with handlers := fun j => if j = irq.toNat then handler else s.handlers j }

def irqUninstallHandler (irq : UInt8) (s : Irq) : Irq :=
  if 16 ≤ irq then s
  else
    irqSetMask irq { s with handlers := fun j => if j = irq.toNat then 0 else s.handlers j }

/-- A call that changes the handler of a line. -/
inductive Call where
  | install (irq : UInt8) (handler : UInt32)
  | uninstall (irq : UInt8)

def Call.apply (s : Irq) : Call → Irq
  | install irq handler => irqInstallHandler irq handler s
  | uninstall irq => irqUninstallHandler irq s

/-- The state after `PIC_remap(0x20, 0x28)`, with no handler yet, and a sequence of
calls. -/
def afterCalls (master slave : Pic) (calls : List Call) : Irq :=
  calls.foldl Call.apply (picRemap 0x20 0x28 ⟨fun _ => 0, master, slave⟩)

end Irq

end Yotos
