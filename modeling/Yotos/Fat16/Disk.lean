import Mathlib.Algebra.Ring.Int.Defs
import Yotos.Library.Bytes

/-!
# The disk and the boot record

The drive is modelled by its bytes, sector `lba` being the 512 bytes from
`512 * lba` on, and every transfer succeeds: an error that the drive reports, which
`ata_read_sector` turns into a zero sector, does not occur. The drive has 28 bits of
sector address.

`fat16_init` reads the boot record and the layout follows from it: the FAT copies
start after the reserved sectors, the root directory after them, and the data area
after the root directory. `fat16_init` is called once, so the static variables of
`fs/fat16.c` that hold the layout are functions of the boot record here.
-/

namespace Yotos

namespace Fat16

open Bytes

/-- The bytes of the drive. -/
abbrev Disk := Bytes

/-- `ata_read_sector`: a 512-byte buffer. -/
def readSector (d : Disk) (lba : ℕ) : Bytes :=
  fun x => d (512 * (lba % 2 ^ 28) + x)

/-- `ata_write_sector`. -/
def writeSector (d : Disk) (lba : ℕ) (buf : Bytes) : Disk :=
  copy d (512 * (lba % 2 ^ 28)) buf 0 512

/-- The fields of `fat16_bpb_t` that the driver or a FAT16 volume's size depends on. -/
structure Bpb where
  bytesPerSector : UInt16
  sectorsPerCluster : UInt8
  reservedSectors : UInt16
  fatCount : UInt8
  rootEntryCount : UInt16
  totalSectors16 : UInt16
  fatSize16 : UInt16
  totalSectors32 : UInt32
  deriving DecidableEq, Repr

namespace Bpb

/-- The boot record at the start of a sector. -/
def ofSector (sector : Bytes) : Bpb where
  bytesPerSector := UInt16.ofNat (load16 sector 0x0B)
  sectorsPerCluster := sector 0x0D
  reservedSectors := UInt16.ofNat (load16 sector 0x0E)
  fatCount := sector 0x10
  rootEntryCount := UInt16.ofNat (load16 sector 0x11)
  totalSectors16 := UInt16.ofNat (load16 sector 0x13)
  fatSize16 := UInt16.ofNat (load16 sector 0x16)
  totalSectors32 := UInt32.ofNat (load32 sector 0x20)

def spc (b : Bpb) : ℕ := b.sectorsPerCluster.toNat

def fatSize (b : Bpb) : ℕ := b.fatSize16.toNat

/-- `fat_lba`. -/
def fatLba (b : Bpb) : ℕ := b.reservedSectors.toNat

/-- `root_dir_lba`. -/
def rootDirLba (b : Bpb) : ℕ := b.fatLba + b.fatCount.toNat * b.fatSize

/-- `root_dir_sectors`. -/
def rootDirSectors (b : Bpb) : ℕ := (32 * b.rootEntryCount.toNat + 511) / 512

/-- `data_lba`. -/
def dataLba (b : Bpb) : ℕ := b.rootDirLba + b.rootDirSectors

/-- `cluster_bytes`. -/
def clusterBytes (b : Bpb) : ℕ := 512 * b.spc

/-- The LBA of the first sector of a cluster, as `data_lba + (uint32_t)(cluster - 2) *
sectors_per_cluster`: the difference is negative below cluster 2. -/
def clusterLba (b : Bpb) (cluster : ℕ) : ℕ :=
  (b.dataLba + (2 ^ 32 - 2 + cluster) % 2 ^ 32 * b.spc) % 2 ^ 32

/-- The sectors of the volume: the 16-bit count, or the 32-bit one when that is zero. -/
def totalSectors (b : Bpb) : ℕ :=
  if b.totalSectors16 ≠ 0 then b.totalSectors16.toNat else b.totalSectors32.toNat

/-- The whole data clusters that the volume has room for after `data_lba`. -/
def dataClusters (b : Bpb) : ℕ := (b.totalSectors - b.dataLba) / b.spc

theorem spc_lt (b : Bpb) : b.spc < 256 := b.sectorsPerCluster.toNat_lt

theorem fatSize_lt (b : Bpb) : b.fatSize < 65536 := b.fatSize16.toNat_lt

theorem fatLba_lt (b : Bpb) : b.fatLba < 65536 := b.reservedSectors.toNat_lt

theorem rootDirLba_lt (b : Bpb) : b.rootDirLba < 2 ^ 25 := by
  have hcount : b.fatCount.toNat ≤ 255 := Nat.le_of_lt_succ b.fatCount.toNat_lt
  have hmul := Nat.mul_le_mul hcount (Nat.le_of_lt_succ b.fatSize_lt)
  have hlba := b.fatLba_lt
  unfold rootDirLba
  omega

theorem dataLba_lt (b : Bpb) : b.dataLba < 2 ^ 25 + 4096 := by
  have hroot := b.rootDirLba_lt
  have hcount := b.rootEntryCount.toNat_lt
  unfold dataLba rootDirSectors
  omega

/-- No data cluster of a FAT16 volume lies past the drive's sector addresses. -/
theorem clusterLba_of_two_le (b : Bpb) {cluster : ℕ} (h : 2 ≤ cluster)
    (hlt : cluster < 65536) : b.clusterLba cluster = b.dataLba + (cluster - 2) * b.spc := by
  have hmul := Nat.mul_le_mul (show cluster - 2 ≤ 65535 by omega) (Nat.le_of_lt_succ b.spc_lt)
  have hdata := b.dataLba_lt
  have hsub : (2 ^ 32 - 2 + cluster) % 2 ^ 32 = cluster - 2 := by omega
  rw [clusterLba, hsub, Nat.mod_eq_of_lt (by omega)]

theorem clusterLba_add_spc_lt (b : Bpb) {cluster : ℕ} (h : 2 ≤ cluster)
    (hlt : cluster < 65536) : b.clusterLba cluster + b.spc < 2 ^ 28 := by
  have hmul := Nat.mul_le_mul (show cluster - 2 ≤ 65535 by omega) (Nat.le_of_lt_succ b.spc_lt)
  have hdata := b.dataLba_lt
  have hspc := b.spc_lt
  rw [b.clusterLba_of_two_le h hlt]
  omega

end Bpb

/-- The static state of `fs/fat16.c`, with the drive and the heap it works on. -/
structure Fs where
  bpb : Bpb
  mounted : Bool
  disk : Disk
  heapStart : ℕ
  heap : Bytes

/-- `fat16_init`. -/
def fat16Init (fs : Fs) : ℤ × Fs :=
  let sector := readSector fs.disk 0
  if sector 510 ≠ 0x55 ∨ sector 511 ≠ 0xAA then (-1, fs)
  else
    let fs := { fs with bpb := Bpb.ofSector sector }
    if fs.bpb.bytesPerSector ≠ 512 then (-1, fs)
    else if fs.bpb.fatSize16 = 0 then (-1, fs)
    else (0, { fs with mounted := true })

/-- A `uint32_t` value converted to `int`. -/
def toInt (n : ℕ) : ℤ := if n < 2 ^ 31 then (n : ℤ) else (n : ℤ) - 2 ^ 32

theorem readSector_apply (d : Disk) {lba : ℕ} (h : lba < 2 ^ 28) (x : ℕ) :
    readSector d lba x = d (512 * lba + x) := by
  rw [readSector, Nat.mod_eq_of_lt h]

theorem load16_readSector (d : Disk) {lba : ℕ} (h : lba < 2 ^ 28) (x : ℕ) :
    load16 (readSector d lba) x = load16 d (512 * lba + x) := by
  rw [load16, load16, readSector_apply d h, readSector_apply d h, Nat.add_assoc]

theorem writeSector_of_mem (d : Disk) (buf : Bytes) {lba x : ℕ} (h : lba < 2 ^ 28)
    (hx : x < 512) : writeSector d lba buf (512 * lba + x) = buf x := by
  rw [writeSector, Nat.mod_eq_of_lt h, copy_of_mem _ _ (by omega)]
  congr 1
  omega

theorem writeSector_of_apart (d : Disk) (buf : Bytes) {lba a : ℕ} (h : lba < 2 ^ 28)
    (ha : a < 512 * lba ∨ 512 * lba + 512 ≤ a) : writeSector d lba buf a = d a := by
  rw [writeSector, Nat.mod_eq_of_lt h, copy_of_apart _ _ _ ha]

/-- Writing back a sector in which a part was replaced changes that part only. -/
theorem writeSector_patch (d d' : Disk) (buf : Bytes) {lba : ℕ} (h : lba < 2 ^ 28)
    (hin : ∀ x < 512, buf x = d' (512 * lba + x))
    (hout : ∀ a, a < 512 * lba ∨ 512 * lba + 512 ≤ a → d' a = d a) :
    writeSector d lba buf = d' := by
  funext a
  by_cases ha : a < 512 * lba ∨ 512 * lba + 512 ≤ a
  · rw [writeSector_of_apart d buf h ha, hout a ha]
  · obtain ⟨x, rfl⟩ := Nat.exists_eq_add_of_le (show 512 * lba ≤ a by omega)
    rw [writeSector_of_mem d buf h (by omega), hin x (by omega)]

end Fat16

end Yotos
