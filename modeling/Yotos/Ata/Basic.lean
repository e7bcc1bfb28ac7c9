import Yotos.Library.Poll
import Yotos.Fat16.Disk

/-!
# The disk driver and the controller

`drivers/ata.c`, against a controller with two drives. The controller has the registers
that the driver writes, it is busy for a while after a command and after the data of a
write, and a command may fail. `Hardware` says for how long and which. While it is busy it
shows nothing but that, and takes no register.

The controller knows the two commands of the driver, for one sector. A drive that is not
there answers with status 0. Other ports have no effect, `ATA_FEATURES` among them.
-/

namespace Yotos

namespace Ata

open Bytes Fat16 Library

/-! ## The controller -/

/-- What the controller waits for. -/
inductive Phase
  | idle
  /-- The command failed. -/
  | failed
  /-- Word `i` of the sector is to be read next. -/
  | input (lba i : ℕ)
  /-- Word `i` of the sector is to be written next, after those in `buf`. -/
  | output (lba i : ℕ) (buf : Bytes)

/-- The controller with its two drives, which may be missing. -/
structure Controller where
  master : Option Disk
  slave : Option Disk
  driveHead : BitVec 8
  sectorCount : BitVec 8
  lbaLo : BitVec 8
  lbaMid : BitVec 8
  lbaHi : BitVec 8
  /-- How often the status shows `BSY` still. -/
  busy : ℕ
  phase : Phase
  /-- How many commands there were. -/
  commands : ℕ

/-- How often the status shows `BSY` after each command and after its data, and which
commands fail. -/
structure Hardware where
  delay : ℕ → ℕ
  flush : ℕ → ℕ
  fails : ℕ → Bool

/-! Ports and commands. -/

def ataSectorCnt : ℕ := 0x1F2
def ataLbaLo : ℕ := 0x1F3
def ataLbaMid : ℕ := 0x1F4
def ataLbaHi : ℕ := 0x1F5
def ataFeatures : ℕ := 0x1F1
def ataDriveHead : ℕ := 0x1F6
def ataCommand : ℕ := 0x1F7
def ataCmdReadPio : BitVec 8 := 0x20
def ataCmdWritePio : BitVec 8 := 0x30

namespace Controller

/-- Drive 0 is the master, the others are the slave. -/
def drive (c : Controller) (n : ℕ) : Option Disk := if n = 0 then c.master else c.slave

def setDrive (c : Controller) (n : ℕ) (d : Disk) : Controller :=
  if n = 0 then { c with master := some d } else { c with slave := some d }

/-- The selected drive. -/
def selected (c : Controller) : ℕ := if c.driveHead &&& 0x10#8 = 0 then 0 else 1

/-- The sector address in the registers. -/
def address (c : Controller) : ℕ :=
  c.lbaLo.toNat + 2 ^ 8 * c.lbaMid.toNat + 2 ^ 16 * c.lbaHi.toNat +
    2 ^ 24 * (c.driveHead &&& 0x0F#8).toNat

/-- What follows command `v`, which needs the LBA mode and a count of 1. -/
def start (hw : Hardware) (v : BitVec 8) (c : Controller) : Phase :=
  if hw.fails c.commands ∨ c.driveHead &&& 0x40#8 = 0 ∨ c.sectorCount ≠ 1 then .failed
  else if v = ataCmdReadPio then .input c.address 0
  else if v = ataCmdWritePio then .output c.address 0 fun _ => 0
  else .failed

/-- `outb`. -/
def outb (hw : Hardware) (port : ℕ) (v : BitVec 8) (c : Controller) : Controller :=
  if 0 < c.busy then c
  else if port = ataDriveHead then { c with driveHead := v }
  else if port = ataSectorCnt then { c with sectorCount := v }
  else if port = ataLbaLo then { c with lbaLo := v }
  else if port = ataLbaMid then { c with lbaMid := v }
  else if port = ataLbaHi then { c with lbaHi := v }
  else if port = ataCommand then
    if (c.drive c.selected).isNone then { c with commands := c.commands + 1 }
    else
      { c with
        phase := c.start hw v
        busy := hw.delay c.commands
        commands := c.commands + 1 }
  else c

/-- `BSY`, `DRDY`, `DRQ` and `ERR` of the status. -/
def status (c : Controller) : BitVec 8 :=
  if 0 < c.busy then 0x80
  else if (c.drive c.selected).isNone then 0
  else
    match c.phase with
    | .idle => 0x40
    | .failed => 0x41
    | .input .. => 0x48
    | .output .. => 0x48

/-- `inb` of the status or the alternate status: time passes. -/
def inb (c : Controller) : BitVec 8 × Controller := (c.status, { c with busy := c.busy - 1 })

/-- `inw` of the data port. -/
def inw (c : Controller) : ℕ × Controller :=
  match c.phase, c.drive c.selected with
  | .input lba i, some d =>
      (load16 (readSector d lba) (2 * i),
        { c with phase := if i = 255 then .idle else .input lba (i + 1) })
  | _, _ => (0, c)

/-- `outw` to the data port. The sector is on the disk after its last word. -/
def outw (hw : Hardware) (v : ℕ) (c : Controller) : Controller :=
  match c.phase, c.drive c.selected with
  | .output lba i buf, some d =>
      let buf := store16 buf (2 * i) v
      if i = 255 then
        { c.setDrive c.selected (writeSector d lba buf) with
          phase := .idle
          busy := hw.flush (c.commands - 1) }
      else { c with phase := .output lba (i + 1) buf }
  | _, _ => c

end Controller

/-! ## The driver -/

/-- `ata_delay400ns`. -/
def ataDelay400ns (c : Controller) : Controller := c.inb.2.inb.2.inb.2.inb.2

/-- `ata_wait_bsy`. -/
def ataWaitBsy (fuel : ℕ) (c : Controller) : Option Controller :=
  let r := poll Controller.inb (fun s => if s &&& 0x80 = 0 then some () else none) fuel c
  r.1.map fun _ => r.2

/-- `ata_wait_drq`: whether the drive is ready for the data. -/
def ataWaitDrq (c : Controller) : Bool × Controller :=
  let r := poll Controller.inb (fun s =>
    if s &&& 0x01 ≠ 0 then some false
    else if s &&& 0x08 ≠ 0 then some true
    else none) 1000000 c
  (r.1.getD false, r.2)

/-- The register writes at the start of `ata_read_sector` and `ata_write_sector`, where
`drive` is `current_drive`. -/
def ataIssue (hw : Hardware) (drive : ℕ) (lba : BitVec 32) (command : BitVec 8) (c : Controller) :
    Controller :=
  let c := c.outb hw ataDriveHead
    ((if drive = 0 then 0xE0#8 else 0xF0#8) ||| (lba >>> 24 &&& 0x0F).truncate 8)
  let c := c.outb hw ataFeatures 0x00
  let c := c.outb hw ataSectorCnt 1
  let c := c.outb hw ataLbaLo (lba.truncate 8)
  let c := c.outb hw ataLbaMid ((lba >>> 8).truncate 8)
  let c := c.outb hw ataLbaHi ((lba >>> 16).truncate 8)
  c.outb hw ataCommand command

/-- `n` words from the data port into the buffer. -/
def readWords : (n : ℕ) → Bytes → Controller → Bytes × Controller
  | 0, buf, c => (buf, c)
  | n + 1, buf, c =>
      let (buf, c) := readWords n buf c
      (store16 buf (2 * n) c.inw.1, c.inw.2)

/-- `n` words of the buffer to the data port. -/
def writeWords (hw : Hardware) (buf : Bytes) : (n : ℕ) → Controller → Controller
  | 0, c => c
  | n + 1, c => (writeWords hw buf n c).outw hw (load16 buf (2 * n))

/-- `ata_read_sector`. -/
def ataReadSector (hw : Hardware) (fuel drive : ℕ) (lba : BitVec 32) (buf : Bytes)
    (c : Controller) : Option (Bytes × Controller) :=
  (ataWaitBsy fuel c).map fun c =>
    let c := ataDelay400ns (ataIssue hw drive lba ataCmdReadPio c)
    let (ok, c) := ataWaitDrq c
    if ok then readWords 256 buf c
    else (fun x => if x < 512 then 0 else buf x, c)

/-- `ata_write_sector`. -/
def ataWriteSector (hw : Hardware) (fuel drive : ℕ) (lba : BitVec 32) (buf : Bytes)
    (c : Controller) : Option Controller :=
  (ataWaitBsy fuel c).bind fun c =>
    let c := ataDelay400ns (ataIssue hw drive lba ataCmdWritePio c)
    let (ok, c) := ataWaitDrq c
    if ok then ataWaitBsy fuel (writeWords hw buf 256 c) else some c

/-- The boot signature. -/
def isBoot (buf : Bytes) : Bool := buf 510 = 0x55 ∧ buf 511 = 0xAA

/-- `ata_init`: the drive it chooses, and what it prints. The buffer is not set before. -/
def ataInit (hw : Hardware) (fuel : ℕ) (buf : Bytes) (c : Controller) :
    Option (ℕ × String × Controller) :=
  (ataReadSector hw fuel 1 0 buf c).bind fun (buf, c) =>
    if isBoot buf then some (1, "[ATA] Disk found on primary slave\n", c)
    else
      (ataReadSector hw fuel 0 0 buf c).map fun (buf, c) =>
        (0, if isBoot buf then "[ATA] Disk found on primary master\n"
          else "[ATA] No disk found (checked slave + master)\n", c)

end Ata

end Yotos
