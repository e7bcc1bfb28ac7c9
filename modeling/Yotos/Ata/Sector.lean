import Yotos.Ata.Basic

/-!
# One command

What the two functions of the driver do, whatever the controller was left in. A command
that completes in time transfers its sector, and one that fails, comes too late or finds
no drive transfers nothing.
-/

namespace Yotos

namespace Ata

open Bytes Fat16 Library

variable {hw : Hardware} {c : Controller} {n drive fuel a : ℕ} {lba : BitVec 32} {buf buf₀ : Bytes}
  {d : Disk}

/-! ## Waiting -/

/-- The controller after `n` reads of its status. -/
def Controller.wait (n : ℕ) (c : Controller) : Controller := { c with busy := c.busy - n }

@[simp] theorem drive_wait (n m : ℕ) (c : Controller) : (c.wait n).drive m = c.drive m := rfl

@[simp] theorem selected_wait (n : ℕ) (c : Controller) : (c.wait n).selected = c.selected := rfl

theorem iterate_inb (n : ℕ) (c : Controller) :
    (fun c => (Controller.inb c).2)^[n] c = c.wait n := by
  induction n generalizing c with
  | zero => rfl
  | succ n ih =>
      rw [Function.iterate_succ_apply, ih]
      simp [Controller.inb, Controller.wait, Nat.sub_sub, Nat.add_comm]

/-- While the controller is busy the status shows nothing else. -/
theorem status_busy (h : n < c.busy) : (c.wait n).inb.1 = 0x80 := by
  have hpos : 0 < c.busy - n := Nat.sub_pos_of_lt h
  simp [Controller.inb, Controller.status, Controller.wait, hpos]

theorem wait_eq (h : c.busy ≤ n) : c.wait n = { c with busy := 0 } := by
  simp [Controller.wait, Nat.sub_eq_zero_of_le h]

theorem status_and (h : c.busy = 0) : c.status &&& 0x80 = 0 := by
  simp only [Controller.status, h, Nat.lt_irrefl, if_false]
  split_ifs
  · rfl
  · cases c.phase <;> simp

theorem ataDelay400ns_eq (c : Controller) : ataDelay400ns c = c.wait 4 :=
  iterate_inb 4 c

theorem ataWaitBsy_eq (h : c.busy < fuel) : ataWaitBsy fuel c = some { c with busy := 0 } := by
  rw [ataWaitBsy, poll_eq_some (a := ()) h]
  · rw [iterate_inb, wait_eq le_rfl]
    rfl
  · intro i hi
    rw [iterate_inb, status_busy hi]
    rfl
  · rw [iterate_inb, wait_eq le_rfl, Controller.inb]
    exact if_pos (status_and rfl)

/-- The selected drive is there and its data is due. -/
def Controller.Due (c : Controller) : Prop :=
  (c.drive c.selected).isNone = false ∧
    ((∃ lba i, c.phase = .input lba i) ∨ ∃ lba i buf, c.phase = .output lba i buf)

/-- What the loop of `ata_wait_drq` makes of a status. -/
def drqOf (s : BitVec 8) : Option Bool :=
  if s &&& 0x01 ≠ 0 then some false
  else if s &&& 0x08 ≠ 0 then some true
  else none

theorem drqOf_status (h : c.busy = 0) :
    (c.Due ∧ drqOf c.status = some true) ∨ ¬ c.Due ∧ drqOf c.status ≠ some true := by
  simp only [Controller.status, h, Nat.lt_irrefl, if_false, Controller.Due]
  cases hnone : (c.drive c.selected).isNone with
  | true => exact Or.inr (by simp [drqOf])
  | false =>
      cases c.phase with
      | idle => exact Or.inr (by simp [drqOf])
      | failed => exact Or.inr (by simp [drqOf])
      | input lba i => exact Or.inl (by simp [drqOf])
      | output lba i buf => exact Or.inl (by simp [drqOf])

/-- The loop sees the data due, or it sees an error, or it gives up. -/
theorem ataWaitDrq_eq (c : Controller) :
    ∃ ok, ataWaitDrq c = (ok, c.wait 1000000) ∧ (ok = true ↔ c.busy < 1000000 ∧ c.Due) := by
  have hwait : ataWaitDrq c = ((poll Controller.inb drqOf 1000000 c).1.getD false,
      (poll Controller.inb drqOf 1000000 c).2) := rfl
  have hskip : ∀ i < c.busy, drqOf ((fun c => (Controller.inb c).2)^[i] c).inb.1 = none := by
    intro i hi
    rw [iterate_inb, status_busy hi]
    rfl
  rw [hwait]
  rcases Nat.lt_or_ge c.busy 1000000 with hlt | hge
  · have hstatus : ((fun c => (Controller.inb c).2)^[c.busy] c).inb.1 =
        { c with busy := 0 }.status := by
      rw [iterate_inb, wait_eq le_rfl, Controller.inb]
    have hdue : { c with busy := 0 }.Due ↔ c.Due := Iff.rfl
    have hlate : c.wait 1000000 = { c with busy := 0 } := wait_eq hlt.le
    rw [hlate]
    rcases drqOf_status (c := { c with busy := 0 }) rfl with ⟨h, hdrq⟩ | ⟨h, hdrq⟩
    · rw [poll_eq_some hlt hskip (hstatus ▸ hdrq), iterate_inb, wait_eq le_rfl]
      exact ⟨true, rfl, iff_of_true rfl ⟨hlt, hdue.1 h⟩⟩
    · refine ⟨false, ?_, iff_of_false (by simp) fun h' => h (hdue.2 h'.2)⟩
      cases hres : drqOf { c with busy := 0 }.status with
      | some ok =>
          rw [poll_eq_some hlt hskip (hstatus ▸ hres), iterate_inb, wait_eq le_rfl]
          cases ok with
          | true => exact absurd hres hdrq
          | false => rfl
      | none =>
          -- the status stays as it is
          rw [poll_eq_none, iterate_inb, hlate]
          · rfl
          · intro i _
            rcases Nat.lt_or_ge i c.busy with hi | hi
            · exact hskip i hi
            · rw [iterate_inb, wait_eq hi, Controller.inb]
              exact hres
  · refine ⟨false, ?_, iff_of_false (by simp) fun h => by omega⟩
    rw [poll_eq_none fun i hi => hskip i (by omega), iterate_inb]
    rfl

/-! ## Issuing a command -/

/-- The controller with the registers of a command for this sector. -/
def Controller.addressed (drive : ℕ) (lba : BitVec 32) (c : Controller) : Controller :=
  { c with
    driveHead := (if drive = 0 then 0xE0#8 else 0xF0#8) ||| (lba >>> 24 &&& 0x0F).truncate 8
    sectorCount := 1
    lbaLo := lba.truncate 8
    lbaMid := (lba >>> 8).truncate 8
    lbaHi := (lba >>> 16).truncate 8 }

theorem ataIssue_eq (h : c.busy = 0) (v : BitVec 8) :
    ataIssue hw drive lba v c = (c.addressed drive lba).outb hw ataCommand v := by
  simp [ataIssue, Controller.outb, Controller.addressed, h, ataDriveHead, ataFeatures,
    ataSectorCnt, ataLbaLo, ataLbaMid, ataLbaHi, ataCommand]

/-- The drive bit, the LBA bit and the address bits of the drive register. -/
theorem driveHead_bits (high : BitVec 8) :
    ((0xE0#8 ||| (high &&& 0x0F#8)) &&& 0x10#8 = 0 ∧ (0xF0#8 ||| (high &&& 0x0F#8)) &&& 0x10#8 ≠ 0) ∧
      ((0xE0#8 ||| (high &&& 0x0F#8)) &&& 0x40#8 ≠ 0 ∧ (0xF0#8 ||| (high &&& 0x0F#8)) &&& 0x40#8 ≠ 0) ∧
        (0xE0#8 ||| (high &&& 0x0F#8)) &&& 0x0F#8 = high &&& 0x0F#8 ∧
          (0xF0#8 ||| (high &&& 0x0F#8)) &&& 0x0F#8 = high &&& 0x0F#8 := by
  revert high
  decide

theorem truncate_high (lba : BitVec 32) :
    (lba >>> 24 &&& 0x0F).truncate 8 = (lba >>> 24).truncate 8 &&& 0x0F#8 := by
  simp

theorem selected_addressed (drive : ℕ) (lba : BitVec 32) (c : Controller) :
    (c.addressed drive lba).selected = if drive = 0 then 0 else 1 := by
  have hbits := (driveHead_bits ((lba >>> 24).truncate 8)).1
  rw [Controller.selected, Controller.addressed, truncate_high]
  by_cases hdrive : drive = 0
  · simp only [hdrive, if_true]
    rw [if_pos hbits.1]
  · simp only [hdrive, if_false]
    rw [if_neg hbits.2]

/-- The selected drive is the driver's. -/
theorem drive_selected (drive : ℕ) (lba : BitVec 32) (c : Controller) :
    (c.addressed drive lba).drive (c.addressed drive lba).selected = c.drive drive := by
  rw [selected_addressed]
  by_cases hdrive : drive = 0
  · simp [hdrive, Controller.drive, Controller.addressed]
  · simp [hdrive, Controller.drive, Controller.addressed]

theorem address_addressed (drive : ℕ) (lba : BitVec 32) (c : Controller) :
    (c.addressed drive lba).address = lba.toNat % 2 ^ 28 := by
  have hbits := (driveHead_bits ((lba >>> 24).truncate 8)).2.2
  have hhead : (c.addressed drive lba).driveHead &&& 0x0F#8 =
      (lba >>> 24).truncate 8 &&& 0x0F#8 := by
    rw [Controller.addressed, truncate_high]
    split_ifs
    · exact hbits.1
    · exact hbits.2
  have hmask : ((lba >>> 24).truncate 8 &&& 0x0F#8).toNat = lba.toNat / 2 ^ 24 % 2 ^ 4 := by
    rw [BitVec.toNat_and, BitVec.truncate_eq_setWidth, BitVec.toNat_setWidth,
      BitVec.toNat_ushiftRight, Nat.shiftRight_eq_div_pow]
    have hmod := Nat.and_two_pow_sub_one_eq_mod (lba.toNat / 2 ^ 24 % 2 ^ 8) 4
    rw [show (0x0F#8).toNat = 2 ^ 4 - 1 from rfl, hmod]
    exact Nat.mod_mod_of_dvd _ (Nat.pow_dvd_pow 2 (by decide))
  rw [Controller.address, hhead, hmask]
  simp only [Controller.addressed, BitVec.truncate_eq_setWidth, BitVec.toNat_setWidth,
    BitVec.toNat_ushiftRight, Nat.shiftRight_eq_div_pow]
  omega

/-- Which commands complete in time: the first four reads of the status do not count. -/
def Hardware.completes (hw : Hardware) (k : ℕ) : Bool :=
  !hw.fails k && hw.delay k < 1000004

/-- What the two commands wait for. -/
def phaseOf (v : BitVec 8) (a : ℕ) : Phase :=
  if v = ataCmdReadPio then .input a 0 else .output a 0 fun _ => 0

/-- The controller when the driver has waited for the data. -/
structure Answered (hw : Hardware) (drive : ℕ) (lba : BitVec 32) (v : BitVec 8)
    (c c' : Controller) (ok : Bool) : Prop where
  master : c'.master = c.master
  slave : c'.slave = c.slave
  selected : c'.selected = if drive = 0 then 0 else 1
  commands : c'.commands = c.commands + 1
  busy : c'.busy ≤ hw.delay c.commands
  ok_iff : ok = true ↔ (c.drive drive).isSome = true ∧ hw.completes c.commands = true
  phase : ok = true → c'.phase = phaseOf v (lba.toNat % 2 ^ 28) ∧ c'.busy = 0

theorem outb_command (h : c.busy = 0) (v : BitVec 8) :
    c.outb hw ataCommand v =
      if (c.drive c.selected).isNone then { c with commands := c.commands + 1 }
      else
        { c with
          phase := c.start hw v
          busy := hw.delay c.commands
          commands := c.commands + 1 } := by
  simp [Controller.outb, h, ataCommand, ataDriveHead, ataSectorCnt, ataLbaLo, ataLbaMid, ataLbaHi]

/-- With the registers of the driver, a command fails if the hardware says so. -/
theorem start_addressed {v : BitVec 8} (hv : v = ataCmdReadPio ∨ v = ataCmdWritePio) :
    (c.addressed drive lba).start hw v =
      if hw.fails c.commands then .failed else phaseOf v (lba.toNat % 2 ^ 28) := by
  have hbits := (driveHead_bits ((lba >>> 24).truncate 8)).2.1
  have hlba : (c.addressed drive lba).driveHead &&& 0x40#8 ≠ 0 := by
    rw [Controller.addressed, truncate_high]
    split_ifs
    · exact hbits.1
    · exact hbits.2
  have hcount : (c.addressed drive lba).sectorCount = 1 := rfl
  have hcommands : (c.addressed drive lba).commands = c.commands := rfl
  rw [Controller.start, address_addressed, hcommands]
  simp only [hlba, hcount, ne_eq, not_true_eq_false, or_false]
  cases hw.fails c.commands with
  | true => rfl
  | false =>
      rcases hv with rfl | rfl
      · rfl
      · rfl

theorem due_phaseOf {v : BitVec 8} (h : c.phase = phaseOf v a) :
    c.Due ↔ (c.drive c.selected).isNone = false := by
  rw [Controller.Due, h, phaseOf]
  split_ifs
  · exact and_iff_left (Or.inl ⟨a, 0, rfl⟩)
  · exact and_iff_left (Or.inr ⟨a, 0, _, rfl⟩)

/-- The driver's wait ends with the data due, if the drive is there and the command
completes. -/
theorem ataIssue_answered (hw : Hardware) (drive : ℕ) (lba : BitVec 32) (h : c.busy = 0)
    {v : BitVec 8}
    (hv : v = ataCmdReadPio ∨ v = ataCmdWritePio) :
    ∃ ok c', ataWaitDrq (ataDelay400ns (ataIssue hw drive lba v c)) = (ok, c') ∧
      Answered hw drive lba v c c' ok := by
  obtain ⟨ok, heq, hok⟩ := ataWaitDrq_eq (ataDelay400ns (ataIssue hw drive lba v c))
  refine ⟨ok, _, heq, ?_⟩
  have hsel := drive_selected drive lba c
  have hone := selected_addressed drive lba c
  have hready : (c.addressed drive lba).busy = 0 := h
  rw [ataDelay400ns_eq, ataIssue_eq h, outb_command hready, hsel] at hok ⊢
  cases hdrive : c.drive drive with
  | none =>
      simp only [hdrive, Option.isNone_none, if_true] at hok ⊢
      have hnot : ¬ ok = true := fun hyes => by
        have hnone : ((c.addressed drive lba).drive (c.addressed drive lba).selected).isNone =
            false := (hok.1 hyes).2.1
        rw [hsel, hdrive] at hnone
        cases hnone
      refine ⟨rfl, rfl, (selected_wait _ _).trans hone, rfl, ?_,
        iff_of_false hnot (by simp [hdrive]), fun hyes => absurd hyes hnot⟩
      simp [Controller.wait, hready]
  | some d =>
      simp only [hdrive, Option.isNone_some, Bool.false_eq_true, if_false,
        start_addressed hv] at hok ⊢
      have hcommands : (c.addressed drive lba).commands = c.commands := rfl
      rw [hcommands] at hok ⊢
      have hiff : ok = true ↔ hw.completes c.commands = true := by
        rw [hok]
        cases hfails : hw.fails c.commands with
        | true =>
            refine iff_of_false (fun hno => ?_) (by simp [Hardware.completes, hfails])
            rcases hno.2.2 with ⟨_, _, hp⟩ | ⟨_, _, _, hp⟩
            · cases hp
            · cases hp
        | false =>
            have hlate : hw.delay c.commands - 4 < 1000000 ↔ hw.delay c.commands < 1000004 := by
              omega
            have hthere : ((c.addressed drive lba).drive (c.addressed drive lba).selected).isNone =
                false := by rw [hsel, hdrive]; rfl
            simp only [Hardware.completes, hfails, Bool.not_false, Bool.true_and,
              decide_eq_true_eq, ← hlate]
            refine and_iff_left ((due_phaseOf rfl).2 ?_)
            exact hthere
      refine ⟨rfl, rfl, (selected_wait _ _).trans hone, rfl, ?_, by simpa [hdrive] using hiff,
        fun hyes => ?_⟩
      · simp only [Controller.wait]
        omega
      · have hcompletes := hiff.1 hyes
        simp only [Hardware.completes, Bool.and_eq_true, Bool.not_eq_true',
          decide_eq_true_eq] at hcompletes
        refine ⟨by simp [Controller.wait, hcompletes.1], ?_⟩
        simp only [Controller.wait]
        omega

/-! ## The data -/

/-- The words of a sector fill the buffer from its start. -/
theorem readWords_eq (hphase : c.phase = .input a 0) (hd : c.drive c.selected = some d)
    (hn : n ≤ 256) :
    ∃ buf', readWords n buf c =
        (buf', { c with phase := if n = 256 then .idle else .input a n }) ∧
      ∀ x < 2 * n, buf' x = readSector d a x := by
  induction n with
  | zero =>
      refine ⟨buf, ?_, fun x hx => absurd hx (Nat.not_lt_zero x)⟩
      rw [if_neg (by simp), ← hphase]
      rfl
  | succ n ih =>
      obtain ⟨buf', heq, hbuf⟩ := ih (Nat.le_of_succ_le hn)
      have hne : n ≠ 256 := by omega
      have hsel : { c with phase := .input a n }.drive { c with phase := .input a n }.selected =
          some d := hd
      have hinw : Controller.inw { c with phase := .input a n } =
          (load16 (readSector d a) (2 * n),
            { c with phase := if n = 255 then .idle else .input a (n + 1) }) := by
        simp [Controller.inw, hsel]
      rw [if_neg hne] at heq
      refine ⟨store16 buf' (2 * n) (load16 (readSector d a) (2 * n)), ?_, fun x hx => ?_⟩
      · have hlast : n = 255 ↔ n + 1 = 256 := by omega
        rw [readWords, heq]
        dsimp only
        rw [hinw]
        simp only [hlast]
      · rcases Nat.lt_or_ge x (2 * n) with hlt | hge
        · rw [store16_of_apart _ _ (Or.inl hlt), hbuf x hlt]
        · obtain ⟨i, rfl⟩ := Nat.exists_eq_add_of_le hge
          exact store16_load16_apply buf' (readSector d a) (2 * n) (by omega)

theorem drive_setDrive (d : Disk) {n m : ℕ} (hnm : n = 0 ↔ m = 0) (c : Controller) :
    (c.setDrive n d).drive m = some d := by
  by_cases hn : n = 0
  · simp [Controller.setDrive, Controller.drive, hn, hnm.1 hn]
  · simp [Controller.setDrive, Controller.drive, hn, mt hnm.2 hn]

theorem drive_setDrive_of_ne (d : Disk) {n m : ℕ} (hnm : n = 0 ↔ m ≠ 0) (c : Controller) :
    (c.setDrive n d).drive m = c.drive m := by
  by_cases hn : n = 0
  · simp [Controller.setDrive, Controller.drive, hn, hnm.1 hn]
  · have hm : m = 0 := by
      by_contra hm
      exact hn (hnm.2 hm)
    simp [Controller.setDrive, Controller.drive, hn, hm]

theorem writeSector_congr (h : ∀ x < 512, buf x = buf₀ x) (d : Disk) (a : ℕ) :
    writeSector d a buf = writeSector d a buf₀ := by
  funext x
  by_cases hx : 512 * (a % 2 ^ 28) ≤ x ∧ x < 512 * (a % 2 ^ 28) + 512
  · rw [writeSector, writeSector, copy_of_mem _ _ hx, copy_of_mem _ _ hx]
    exact h _ (by omega)
  · rw [writeSector, writeSector, copy_of_apart _ _ _ (by omega), copy_of_apart _ _ _ (by omega)]

/-- The words before the last one wait in the controller. -/
theorem writeWords_eq (hphase : c.phase = .output a 0 buf₀) (hd : c.drive c.selected = some d)
    (hn : n < 256) :
    ∃ buf', writeWords hw buf n c = { c with phase := .output a n buf' } ∧
      ∀ x < 2 * n, buf' x = buf x := by
  induction n with
  | zero =>
      refine ⟨buf₀, ?_, fun x hx => absurd hx (Nat.not_lt_zero x)⟩
      rw [← hphase]
      rfl
  | succ n ih =>
      obtain ⟨buf', heq, hbuf⟩ := ih (Nat.lt_of_succ_lt hn)
      have hsel : { c with phase := .output a n buf' }.drive
          { c with phase := .output a n buf' }.selected = some d := hd
      refine ⟨store16 buf' (2 * n) (load16 buf (2 * n)), ?_, fun x hx => ?_⟩
      · rw [writeWords, heq]
        simp [Controller.outw, hsel, show n ≠ 255 by omega]
      · rcases Nat.lt_or_ge x (2 * n) with hlt | hge
        · rw [store16_of_apart _ _ (Or.inl hlt), hbuf x hlt]
        · obtain ⟨i, rfl⟩ := Nat.exists_eq_add_of_le hge
          exact store16_load16_apply buf' buf (2 * n) (by omega)

/-- The last word puts the sector on the disk. -/
theorem writeWords_all (hphase : c.phase = .output a 0 buf₀) (hd : c.drive c.selected = some d) :
    writeWords hw buf 256 c =
      { c.setDrive c.selected (writeSector d a buf) with
        phase := .idle
        busy := hw.flush (c.commands - 1) } := by
  obtain ⟨buf', heq, hbuf⟩ := writeWords_eq hphase hd
    (show 255 < 256 by simp)
  have hsel : { c with phase := .output a 255 buf' }.drive
      { c with phase := .output a 255 buf' }.selected = some d := hd
  have hstored : writeSector d a (store16 buf' (2 * 255) (load16 buf (2 * 255))) =
      writeSector d a buf := by
    refine writeSector_congr (fun x hx => ?_) d a
    rcases Nat.lt_or_ge x (2 * 255) with hlt | hge
    · rw [store16_of_apart _ _ (Or.inl hlt), hbuf x hlt]
    · obtain ⟨i, rfl⟩ := Nat.exists_eq_add_of_le hge
      exact store16_load16_apply buf' buf (2 * 255) (by omega)
  have houtw : Controller.outw hw (load16 buf (2 * 255)) { c with phase := .output a 255 buf' } =
      { c.setDrive c.selected
          (writeSector d a (store16 buf' (2 * 255) (load16 buf (2 * 255)))) with
        phase := .idle
        busy := hw.flush (c.commands - 1) } := by
    have hselected : Controller.selected { c with phase := .output a 255 buf' } = c.selected := rfl
    simp only [Controller.outw, hsel, if_true]
    rw [hselected, Controller.setDrive, Controller.setDrive]
    split_ifs <;> rfl
  rw [writeWords, heq, houtw, hstored]

/-! ## The two functions -/

/-- What a drive answers to a read. -/
def answer (ok : Bool) (d : Option Disk) (lba : ℕ) : Bytes :=
  match d with
  | some d => if ok then readSector d lba else fun _ => 0
  | none => fun _ => 0

/-- What a write leaves on a drive. -/
def stored (ok : Bool) (d : Option Disk) (lba : ℕ) (buf : Bytes) : Option Disk :=
  if ok then d.map fun d => writeSector d lba buf else d

theorem readSector_mod (d : Disk) (lba : ℕ) : readSector d (lba % 2 ^ 28) = readSector d lba := by
  funext x
  rw [readSector, readSector, Nat.mod_mod]

theorem writeSector_mod (d : Disk) (lba : ℕ) (buf : Bytes) :
    writeSector d (lba % 2 ^ 28) buf = writeSector d lba buf := by
  rw [writeSector, writeSector, Nat.mod_mod]

theorem ataReadSector_eq (hw : Hardware) (drive : ℕ) (h : c.busy < fuel) (lba : BitVec 32)
    (buf : Bytes) :
    ∃ buf' c', ataReadSector hw fuel drive lba buf c = some (buf', c') ∧
      (∀ x < 512, buf' x = answer (hw.completes c.commands) (c.drive drive) lba.toNat x) ∧
      c'.master = c.master ∧ c'.slave = c.slave ∧ c'.commands = c.commands + 1 ∧
      c'.busy ≤ hw.delay c.commands := by
  obtain ⟨ok, c', heq, hc⟩ := ataIssue_answered hw drive lba
    (c := { c with busy := 0 }) rfl (Or.inl rfl)
  have hiff : ok = true ↔ (c.drive drive).isSome = true ∧ hw.completes c.commands = true :=
    hc.ok_iff
  rw [ataReadSector, ataWaitBsy_eq h, Option.map_some]
  dsimp only
  rw [heq]
  dsimp only
  cases hok : ok with
  | false =>
      refine ⟨_, _, rfl, fun x hx => ?_, hc.master, hc.slave, hc.commands, hc.busy⟩
      rw [if_pos hx]
      cases hd : c.drive drive with
      | none => rfl
      | some d =>
          have hno : hw.completes c.commands = false := by
            rw [Bool.eq_false_iff]
            intro hyes
            rw [hiff.2 ⟨by rw [hd]; rfl, hyes⟩] at hok
            cases hok
          rw [answer, hno]
          rfl
  | true =>
      obtain ⟨hsome, hyes⟩ := hiff.1 hok
      obtain ⟨d, hd⟩ := Option.isSome_iff_exists.1 hsome
      obtain ⟨hphase, hbusy⟩ := hc.phase hok
      have hsel : c'.drive c'.selected = some d := by
        rw [hc.selected, ← hd, Controller.drive, Controller.drive, hc.master, hc.slave]
        split_ifs <;> simp_all
      obtain ⟨buf', hwords, hbuf⟩ := readWords_eq hphase hsel le_rfl
      rw [if_pos rfl, hwords]
      refine ⟨_, _, rfl, fun x hx => ?_, hc.master, hc.slave, hc.commands, hc.busy⟩
      rw [hbuf x hx, hd, answer, hyes, readSector_mod]
      rfl

theorem ataWriteSector_eq (hw : Hardware) (drive : ℕ) (h : c.busy < fuel)
    (hflush : hw.flush c.commands < fuel) (lba : BitVec 32) (buf : Bytes) :
    ∃ c', ataWriteSector hw fuel drive lba buf c = some c' ∧
      c'.drive drive = stored (hw.completes c.commands) (c.drive drive) lba.toNat buf ∧
      c'.drive (1 - drive) = c.drive (1 - drive) ∧ c'.commands = c.commands + 1 ∧
      c'.busy ≤ hw.delay c.commands := by
  obtain ⟨ok, c', heq, hc⟩ := ataIssue_answered hw drive lba
    (c := { c with busy := 0 }) rfl (Or.inr rfl)
  have hiff : ok = true ↔ (c.drive drive).isSome = true ∧ hw.completes c.commands = true :=
    hc.ok_iff
  have hsame : ∀ n, c'.drive n = c.drive n := fun n => by
    rw [Controller.drive, Controller.drive, hc.master, hc.slave]
  rw [ataWriteSector, ataWaitBsy_eq h, Option.bind_some]
  dsimp only
  rw [heq]
  dsimp only
  cases hok : ok with
  | false =>
      refine ⟨c', rfl, ?_, hsame _, hc.commands, hc.busy⟩
      rw [hsame, stored]
      cases hd : c.drive drive with
      | none => simp
      | some d =>
          rw [if_neg fun hyes => ?_]
          rw [hiff.2 ⟨by rw [hd]; rfl, hyes⟩] at hok
          cases hok
  | true =>
      obtain ⟨hsome, hyes⟩ := hiff.1 hok
      obtain ⟨d, hd⟩ := Option.isSome_iff_exists.1 hsome
      obtain ⟨hphase, -⟩ := hc.phase hok
      have hsel : c'.drive c'.selected = some d := by
        rw [hc.selected, ← hd, ← hsame, Controller.drive, Controller.drive]
        split_ifs <;> simp_all
      have hcommands : c'.commands - 1 = c.commands := by
        rw [hc.commands]
        rfl
      rw [if_pos rfl, writeWords_all hphase hsel, hcommands, ataWaitBsy_eq (by exact hflush)]
      have hzero : c'.selected = 0 ↔ drive = 0 := by
        rw [hc.selected]
        split_ifs with h0
        · exact iff_of_true rfl h0
        · exact iff_of_false (by simp) h0
      refine ⟨_, rfl, ?_, ?_, ?_, Nat.zero_le _⟩
      · rw [stored, if_pos hyes, hd, Option.map_some, writeSector_mod]
        exact drive_setDrive _ hzero c'
      · rw [← hsame]
        refine drive_setDrive_of_ne _ ?_ c'
        rw [hzero]
        omega
      · rw [← hc.commands]
        rw [Controller.setDrive]
        split_ifs <;> rfl

end Ata

end Yotos
