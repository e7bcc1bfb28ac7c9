import Yotos.Ata.Sector
import Yotos.Fat16.Faults

/-!
# Runs of the driver

A run of reads and writes behaves like one disk, the one of `current_drive`: a read returns
its sector and a write replaces it, if the command completes, and otherwise a read returns
zeros and a write does nothing. Data of a command that came too late never shows up later:
the next command takes the place of a transfer that is still pending, and the controller
drops the sector it had ready or the words it had taken.

Where the writes complete, this is the drive that the file system's results are about, with
some pattern of failing reads.
-/

namespace Yotos

namespace Ata

open Bytes Fat16 Library

/-- A call of the driver. The buffer of a read holds something before. -/
inductive Request
  | read (lba : BitVec 32) (buf : Bytes)
  | write (lba : BitVec 32) (buf : Bytes)

/-- The 512 bytes of a buffer. -/
def sectorBytes (buf : Bytes) : List UInt8 := (List.range 512).map buf

/-- The calls one after the other, and what the reads return. -/
def runDriver (hw : Hardware) (fuel drive : ℕ) :
    List Request → Controller → Option (List (List UInt8) × Controller)
  | [], c => some ([], c)
  | .read lba buf :: rest, c =>
      (ataReadSector hw fuel drive lba buf c).bind fun p =>
        (runDriver hw fuel drive rest p.2).map fun q => (sectorBytes p.1 :: q.1, q.2)
  | .write lba buf :: rest, c =>
      (ataWriteSector hw fuel drive lba buf c).bind (runDriver hw fuel drive rest)

/-- The same for a disk, where `ok` says which commands complete and `k` were before. -/
def serve (ok : ℕ → Bool) :
    List Request → (k : ℕ) → Option Disk → List (List UInt8) × Option Disk
  | [], _, d => ([], d)
  | .read lba _ :: rest, k, d =>
      let q := serve ok rest (k + 1) d
      (sectorBytes (answer (ok k) d lba.toNat) :: q.1, q.2)
  | .write lba buf :: rest, k, d => serve ok rest (k + 1) (stored (ok k) d lba.toNat buf)

variable {hw : Hardware} {c : Controller} {fuel drive k n : ℕ} {d : Disk} {reqs : List Request}
  {buf buf' : Bytes} {ok : ℕ → Bool}

theorem sectorBytes_congr (h : ∀ x < 512, buf' x = buf x) : sectorBytes buf' = sectorBytes buf :=
  List.map_congr_left fun x hx => h x (List.mem_range.1 hx)

/-- The driver waits long enough: `BSY` goes away after every command. -/
def Hardware.Settles (hw : Hardware) (fuel : ℕ) : Prop :=
  ∀ k, hw.delay k < fuel ∧ hw.flush k < fuel

theorem runDriver_serve (hw : Hardware) (fuel drive : ℕ) (reqs : List Request)
    (c : Controller) (hsettles : hw.Settles fuel) (hbusy : c.busy < fuel) :
    ∃ c', runDriver hw fuel drive reqs c =
        some ((serve hw.completes reqs c.commands (c.drive drive)).1, c') ∧
      c'.drive drive = (serve hw.completes reqs c.commands (c.drive drive)).2 ∧
      c'.drive (1 - drive) = c.drive (1 - drive) := by
  induction reqs generalizing c with
  | nil => exact ⟨c, rfl, rfl, rfl⟩
  | cons req rest ih =>
      have hdelay := (hsettles c.commands).1
      cases req with
      | read lba buf =>
          obtain ⟨buf', c₁, hread, hbuf, hmaster, hslave, hcommands, hbusy'⟩ :=
            ataReadSector_eq hw drive hbusy lba buf
          have hsame : ∀ n, c₁.drive n = c.drive n := fun n => by
            rw [Controller.drive, Controller.drive, hmaster, hslave]
          obtain ⟨c', hrun, hdrive, hother⟩ := ih c₁ (by omega)
          rw [hsame, hcommands] at hrun hdrive
          refine ⟨c', ?_, hdrive, hother.trans (hsame _)⟩
          rw [runDriver, hread, Option.bind_some, hrun, Option.map_some, serve,
            sectorBytes_congr hbuf]
      | write lba buf =>
          obtain ⟨c₁, hwrite, hstored, hkept, hcommands, hbusy'⟩ :=
            ataWriteSector_eq hw drive hbusy (hsettles c.commands).2 lba buf
          obtain ⟨c', hrun, hdrive, hother⟩ := ih c₁ (by omega)
          rw [hstored, hcommands] at hrun hdrive
          refine ⟨c', ?_, hdrive, hother.trans hkept⟩
          rw [runDriver, hwrite, Option.bind_some, hrun]
          rfl

/-! ## The choice of the drive -/

theorem isBoot_congr (h : ∀ x < 512, buf' x = buf x) : isBoot buf' = isBoot buf := by
  rw [isBoot, isBoot, h 510 (by decide), h 511 (by decide)]

/-- The chosen drive is the slave, if it answers with a boot sector, and the master if not,
also when neither does. -/
theorem ataInit_eq (hw : Hardware) (fuel : ℕ) (buf : Bytes) (c : Controller)
    (hsettles : hw.Settles fuel) (hbusy : c.busy < fuel) :
    ∃ c', ataInit hw fuel buf c =
        some (if isBoot (answer (hw.completes c.commands) c.slave 0) then
          (1, "[ATA] Disk found on primary slave\n", c')
        else if isBoot (answer (hw.completes (c.commands + 1)) c.master 0) then
          (0, "[ATA] Disk found on primary master\n", c')
        else (0, "[ATA] No disk found (checked slave + master)\n", c')) ∧
      c'.master = c.master ∧ c'.slave = c.slave ∧ c'.busy < fuel := by
  obtain ⟨buf₁, c₁, hread, hbuf, hmaster, hslave, hcommands, hbusy'⟩ :=
    ataReadSector_eq hw 1 hbusy 0 buf
  have hdelay := (hsettles c.commands).1
  have hone : isBoot buf₁ = isBoot (answer (hw.completes c.commands) c.slave 0) :=
    isBoot_congr hbuf
  rw [ataInit, hread, Option.bind_some]
  dsimp only
  rw [hone]
  split_ifs with hboot hboot'
  · exact ⟨c₁, rfl, hmaster, hslave, by omega⟩
  all_goals
    obtain ⟨buf₂, c₂, hread₂, hbuf₂, hmaster₂, hslave₂, -, hbusy₂⟩ :=
      ataReadSector_eq hw 0 (show c₁.busy < fuel by omega) 0 buf₁
    have hdelay₂ := (hsettles c₁.commands).1
    have htwo : isBoot buf₂ = isBoot (answer (hw.completes (c.commands + 1)) c.master 0) := by
      rw [isBoot_congr hbuf₂, hcommands, ← hmaster]
      rfl
    refine ⟨c₂, ?_, hmaster₂.trans hmaster, hslave₂.trans hslave, by omega⟩
    rw [hread₂, Option.map_some]
    dsimp only
    simp only [htwo, hboot', if_true, if_false, Bool.false_eq_true]

/-- No slave, and a boot sector on the master. -/
theorem ataInit_small :
    ∃ c', ataInit ⟨fun _ => 3, fun _ => 2, fun _ => false⟩ 10 (fun _ => 0)
        ⟨some fun a => if a = 510 then 0x55 else 0xAA, none, 0, 0, 0, 0, 0, 0, .idle, 0⟩ =
      some (0, "[ATA] Disk found on primary master\n", c') := by
  obtain ⟨c', hinit, -⟩ := ataInit_eq ⟨fun _ => 3, fun _ => 2, fun _ => false⟩ 10 (fun _ => 0)
    ⟨some fun a => if a = 510 then 0x55 else 0xAA, none, 0, 0, 0, 0, 0, 0, .idle, 0⟩
    (fun _ => ⟨by simp, by simp⟩) (by simp)
  exact ⟨c', hinit⟩

/-! ## The drive of the file system -/

/-- The calls against the drive of the file system, whose reads fail as `faults` says. -/
def faultyRun (faults : ℕ → Bool) : List Request → Faulty.Drive → Faulty.Run (List (List UInt8))
  | [], s => .ret [] s
  | .read lba _ :: rest, s =>
      (Faulty.ataReadSector faults lba.toNat s).bind fun r s =>
        (faultyRun faults rest s).bind fun out => .ret (sectorBytes r.bytes :: out)
  | .write lba buf :: rest, s =>
      (Faulty.ataWriteSector lba.toNat buf s).bind fun _ => faultyRun faults rest

/-- The writes of a run complete. -/
def WritesComplete (ok : ℕ → Bool) : List Request → ℕ → Prop
  | [], _ => True
  | .read _ _ :: rest, k => WritesComplete ok rest (k + 1)
  | .write _ _ :: rest, k => ok k = true ∧ WritesComplete ok rest (k + 1)

/-- Which reads of a run fail. -/
def failedReads (ok : ℕ → Bool) : List Request → ℕ → List Bool
  | [], _ => []
  | .read _ _ :: rest, k => (!ok k) :: failedReads ok rest (k + 1)
  | .write _ _ :: rest, k => failedReads ok rest (k + 1)

/-- With these reads failing the run is the same. -/
theorem outcome_faultyRun (faults : ℕ → Bool) (hwrites : WritesComplete ok reqs k)
    (hfaults : ∀ i < (failedReads ok reqs k).length,
      (failedReads ok reqs k)[i]? = some (faults (n + i))) :
    ∃ d', (serve ok reqs k (some d)).2 = some d' ∧
      Faulty.outcome (faultyRun faults reqs ⟨d, n⟩) = some ((serve ok reqs k (some d)).1, d') := by
  induction reqs generalizing k n d with
  | nil => exact ⟨d, rfl, rfl⟩
  | cons req rest ih =>
      cases req with
      | read lba buf =>
          have hfirst : (!ok k) = faults n := Option.some.inj (hfaults 0 (Nat.succ_pos _))
          obtain ⟨d', hd', hrun⟩ := ih (k := k + 1) (n := n + 1) (d := d) hwrites fun i hi => by
            have hnext := hfaults (i + 1) (Nat.succ_lt_succ hi)
            rwa [failedReads, List.getElem?_cons_succ, Nat.add_comm i, ← Nat.add_assoc] at hnext
          refine ⟨d', hd', ?_⟩
          rw [faultyRun, Faulty.ataReadSector_bind]
          refine Faulty.outcome_bind hrun fun s hs => ?_
          rw [Faulty.outcome_ret, hs, serve, answer]
          dsimp only
          rw [← hfirst]
          cases ok k <;> rfl
      | write lba buf =>
          rw [serve, stored, if_pos hwrites.1, Option.map_some, faultyRun, Faulty.ataWriteSector,
            Faulty.outcome_note_bind]
          exact ih hwrites.2 hfaults

/-- The driver serves its drive and leaves the other one alone. If the writes complete, the
run is one of the file system's drive, with some reads failing. -/
theorem runDriver_eq_serve (hw : Hardware) (fuel drive : ℕ) (reqs : List Request)
    (c : Controller) (hsettles : hw.Settles fuel) (hbusy : c.busy < fuel) :
    ∃ c', runDriver hw fuel drive reqs c =
        some ((serve hw.completes reqs c.commands (c.drive drive)).1, c') ∧
      c'.drive drive = (serve hw.completes reqs c.commands (c.drive drive)).2 ∧
      c'.drive (1 - drive) = c.drive (1 - drive) ∧
      ∀ d, c.drive drive = some d → WritesComplete hw.completes reqs c.commands →
        ∃ faults d', c'.drive drive = some d' ∧ Faulty.outcome (faultyRun faults reqs ⟨d, 0⟩) =
          some ((serve hw.completes reqs c.commands (some d)).1, d') := by
  obtain ⟨c', hrun, hdrive, hother⟩ := runDriver_serve hw fuel drive reqs c hsettles hbusy
  refine ⟨c', hrun, hdrive, hother, fun d hd hwrites => ?_⟩
  obtain ⟨d', hd', hfaulty⟩ := outcome_faultyRun (n := 0) (d := d)
    (fun i => (failedReads hw.completes reqs c.commands).getD i false) hwrites
    fun i hi => by simp [hi]
  rw [hd] at hdrive
  exact ⟨_, d', hdrive.trans hd', hfaulty⟩

/-- A sector written and read twice, where the second command fails. -/
theorem runDriver_small :
    ∃ c', runDriver ⟨fun _ => 3, fun _ => 2, fun k => k == 1⟩ 10 1
        [.write 3 fun _ => 0x42, .read 3 fun _ => 0, .read 3 fun _ => 0]
        ⟨none, some fun _ => 0, 0, 0, 0, 0, 0, 0, .idle, 0⟩ =
      some ([List.replicate 512 0, List.replicate 512 0x42], c') := by
  obtain ⟨c', hrun, -⟩ := runDriver_eq_serve ⟨fun _ => 3, fun _ => 2, fun k => k == 1⟩ 10 1
    [.write 3 fun _ => 0x42, .read 3 fun _ => 0, .read 3 fun _ => 0]
    ⟨none, some fun _ => 0, 0, 0, 0, 0, 0, 0, .idle, 0⟩ (fun _ => ⟨by simp, by simp⟩) (by simp)
  have hout : (serve (Hardware.completes ⟨fun _ => 3, fun _ => 2, fun k => k == 1⟩)
      [.write 3 fun _ => 0x42, .read 3 fun _ => 0, .read 3 fun _ => 0] 0 (some fun _ => 0)).1 =
        [List.replicate 512 0, List.replicate 512 0x42] := by
    decide +kernel
  exact ⟨c', hrun.trans (by rw [← hout]; rfl)⟩

end Ata

end Yotos
