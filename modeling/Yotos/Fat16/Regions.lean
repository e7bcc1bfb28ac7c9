import Yotos.Fat16.Alloc
import Yotos.Fat16.Data

/-!
# The regions of a mounted volume

`fat16_init` computes where the FAT copies, the root directory and the data area
start, and every later operation relies on these regions to be apart. It checks the
signature, the sector size and the size of a FAT, but not the three other fields that
the layout is computed from: with no sectors per cluster the cluster size is zero,
without reserved sectors the first FAT copy starts on the boot sector, and without FAT
copies the table that the driver keeps lies on the root directory.
-/

namespace Yotos

namespace Fat16

open Bytes

inductive Region
  | boot
  | fat (copy : ℕ)
  | rootDir
  | cluster (c : ℕ)

/-- The clusters that the FAT can index and a 16-bit entry can name. -/
def Indexed (b : Bpb) (c : ℕ) : Prop := 2 ≤ c ∧ c < 256 * b.fatSize ∧ c < 65536

namespace Region

/-- The regions of the volume. The driver keeps a first copy of the table whatever
`fat_count` says. -/
def Exists (b : Bpb) : Region → Prop
  | boot => True
  | fat copy => copy < max 1 b.fatCount.toNat
  | rootDir => True
  | cluster c => Indexed b c

def first (b : Bpb) : Region → ℕ
  | boot => 0
  | fat copy => b.fatLba + copy * b.fatSize
  | rootDir => b.rootDirLba
  | cluster c => b.clusterLba c

def sectors (b : Bpb) : Region → ℕ
  | boot => 1
  | fat _ => b.fatSize
  | rootDir => b.rootDirSectors
  | cluster _ => b.spc

/-- The sector belongs to the region. -/
def Holds (b : Bpb) (r : Region) (s : ℕ) : Prop := r.first b ≤ s ∧ s < r.first b + r.sectors b

end Region

open Region

/-- The disks agree on the sectors of region `r`. -/
def SameRegion (b : Bpb) (r : Region) (d d' : Disk) : Prop :=
  ∀ s x, r.Holds b s → x < 512 → d' (512 * s + x) = d (512 * s + x)

/-- The geometry serves every later operation: no division is by zero, the regions are
apart, and a FAT entry, a directory slot or a cluster of file data is written without a
change to any other region. -/
structure Usable (b : Bpb) : Prop where
  clusterBytes_ne : b.clusterBytes ≠ 0
  apart : ∀ r r' : Region, r.Exists b → r'.Exists b → r ≠ r' → ∀ s, r.Holds b s → ¬ r'.Holds b s
  fatWrite : ∀ d c value, Indexed b c → ∀ r : Region, r.Exists b → (∀ j, r ≠ fat j) →
    SameRegion b r d (fatSetEntry b d c value)
  slotWrite : ∀ d buf s, ∀ r r' : Region, r.Exists b → r'.Exists b → r ≠ r' → r.Holds b s →
    SameRegion b r' d (writeSector d s buf)
  dataWrite : ∀ d buf c, Indexed b c → ∀ r : Region, r.Exists b → r ≠ cluster c →
    SameRegion b r d (writeCluster b d c buf)

/-- What `fat16_init` would have to check. -/
structure FieldsOk (b : Bpb) : Prop where
  sectorsPerCluster : b.sectorsPerCluster ≠ 0
  reservedSectors : b.reservedSectors ≠ 0
  fatCount : b.fatCount ≠ 0

variable {b : Bpb} {d : Disk} {c s : ℕ} {r : Region}

/-- The region that a sector belongs to. -/
def regionAt (b : Bpb) (s : ℕ) : Region :=
  if s = 0 then boot
  else if s < b.rootDirLba then fat ((s - b.fatLba) / b.fatSize)
  else if s < b.dataLba then rootDir
  else cluster ((s - b.dataLba) / b.spc + 2)

theorem FieldsOk.fatLba_pos (h : FieldsOk b) : 0 < b.fatLba := by
  have hne := h.reservedSectors
  rw [Ne, ← UInt16.toNat_inj] at hne
  exact Nat.pos_of_ne_zero hne

theorem FieldsOk.spc_pos (h : FieldsOk b) : 0 < b.spc := by
  have hne := h.sectorsPerCluster
  rw [Ne, ← UInt8.toNat_inj] at hne
  exact Nat.pos_of_ne_zero hne

theorem FieldsOk.fatCount_pos (h : FieldsOk b) : 0 < b.fatCount.toNat := by
  have hne := h.fatCount
  rw [Ne, ← UInt8.toNat_inj] at hne
  exact Nat.pos_of_ne_zero hne

/-- With the three fields set a sector belongs to one region at most. -/
theorem Region.Holds.eq_regionAt (hb : FieldsOk b) (hr : r.Exists b) (hs : r.Holds b s) :
    r = regionAt b s := by
  have hfat := hb.fatLba_pos
  have hspc := hb.spc_pos
  have hcount := hb.fatCount_pos
  have hroot : b.fatLba ≤ b.rootDirLba := by
    unfold Bpb.rootDirLba
    omega
  have hdata : b.rootDirLba ≤ b.dataLba := by
    unfold Bpb.dataLba
    omega
  obtain ⟨hfirst, hlast⟩ := hs
  unfold regionAt
  cases r with
  | boot =>
      simp only [first, sectors] at hfirst hlast
      rw [if_pos (by omega)]
  | fat copy =>
      simp only [first, sectors] at hfirst hlast
      have hcopy : copy < b.fatCount.toNat := by
        have hlt : copy < max 1 b.fatCount.toNat := hr
        omega
      have hmul := Nat.mul_le_mul_right b.fatSize (show copy + 1 ≤ b.fatCount.toNat from hcopy)
      rw [Nat.succ_mul] at hmul
      have hlt : s < b.rootDirLba := by
        unfold Bpb.rootDirLba
        omega
      have hdiv : (s - b.fatLba) / b.fatSize = copy := by
        rw [Nat.div_eq_iff (by omega)]
        omega
      rw [if_neg (by omega), if_pos hlt, hdiv]
  | rootDir =>
      simp only [first, sectors] at hfirst hlast
      have hlt : s < b.dataLba := hlast
      rw [if_neg (by omega), if_neg (by omega), if_pos hlt]
  | cluster c =>
      obtain ⟨htwo, -, hlt⟩ := hr
      simp only [first, sectors] at hfirst hlast
      rw [b.clusterLba_of_two_le htwo hlt] at hfirst hlast
      have hdiv : (s - b.dataLba) / b.spc = c - 2 := by
        rw [Nat.div_eq_iff hspc]
        omega
      rw [if_neg (by omega), if_neg (by omega), if_neg (by omega), hdiv, Nat.sub_add_cancel htwo]

theorem FieldsOk.apart (hb : FieldsOk b) {r r' : Region} (hr : r.Exists b) (hr' : r'.Exists b)
    (hne : r ≠ r') (hs : r.Holds b s) : ¬ r'.Holds b s :=
  fun hs' => hne ((hs.eq_regionAt hb hr).trans (hs'.eq_regionAt hb hr').symm)

/-- Every sector of the volume is within the drive's 28 bits. -/
theorem Region.Holds.lt (hr : r.Exists b) (hs : r.Holds b s) : s < 2 ^ 28 := by
  have hlba := b.fatLba_lt
  have hsize := b.fatSize_lt
  have hdata := b.dataLba_lt
  obtain ⟨-, hlast⟩ := hs
  cases r with
  | boot =>
      simp only [first, sectors] at hlast
      omega
  | fat copy =>
      simp only [first, sectors] at hlast
      have hcount := b.fatCount.toNat_lt
      have hcopy : copy < max 1 b.fatCount.toNat := hr
      have hmul := Nat.mul_le_mul (show copy + 1 ≤ 256 by omega) (show b.fatSize ≤ 65535 by omega)
      rw [Nat.succ_mul] at hmul
      omega
  | rootDir =>
      have hlt : s < b.dataLba := hlast
      omega
  | cluster c =>
      simp only [first, sectors] at hlast
      have hspc := b.clusterLba_add_spc_lt hr.1 hr.2.2
      omega

theorem SameRegion.trans {d₁ d₂ d₃ : Disk} (h : SameRegion b r d₁ d₂) (h' : SameRegion b r d₂ d₃) :
    SameRegion b r d₁ d₃ :=
  fun s x hs hx => (h' s x hs hx).trans (h s x hs hx)

/-- A sector of one region is written without a change to another. -/
theorem FieldsOk.slotWrite (hb : FieldsOk b) (d : Disk) (buf : Bytes) {r r' : Region}
    (hr : r.Exists b) (hr' : r'.Exists b) (hne : r ≠ r') (hs : r.Holds b s) :
    SameRegion b r' d (writeSector d s buf) := by
  intro t x ht hx
  have hst : s ≠ t := by
    rintro rfl
    exact hb.apart hr hr' hne hs ht
  exact writeSector_of_apart d buf (hs.lt hr) (by omega)

/-- The two sectors that `fat_set_entry` writes lie in the first two copies. -/
theorem FieldsOk.fatWrite (hb : FieldsOk b) (d : Disk) (value : ℕ) (hc : Indexed b c)
    (hr : r.Exists b) (hne : ∀ j, r ≠ fat j) : SameRegion b r d (fatSetEntry b d c value) := by
  have hin : 2 * c / 512 < b.fatSize := by
    have hlt := hc.2.1
    omega
  have hcopy₀ : (fat 0).Exists b := Nat.lt_of_lt_of_le Nat.zero_lt_one (Nat.le_max_left _ _)
  have hsector₀ : (fat 0).Holds b (b.fatLba + 2 * c / 512) := by
    simp only [Holds, first, sectors]
    omega
  have hfirst : ∀ buf, SameRegion b r d (writeSector d (b.fatLba + 2 * c / 512) buf) := fun buf =>
    hb.slotWrite d buf hcopy₀ hr (hne 0).symm hsector₀
  unfold fatSetEntry
  dsimp only
  split_ifs with htwo
  · have hcopy₁ : (fat 1).Exists b := Nat.lt_of_lt_of_le htwo (Nat.le_max_right _ _)
    have hsector₁ : (fat 1).Holds b (b.fatLba + b.fatSize + 2 * c / 512) := by
      simp only [Holds, first, sectors]
      omega
    exact (hfirst _).trans (hb.slotWrite _ _ hcopy₁ hr (hne 1).symm hsector₁)
  · exact hfirst _

theorem FieldsOk.dataWrite (hb : FieldsOk b) (d : Disk) (buf : Bytes) (hc : Indexed b c)
    (hr : r.Exists b) (hne : r ≠ cluster c) : SameRegion b r d (writeCluster b d c buf) := by
  intro t x ht hx
  have hcluster : (cluster c).Exists b := hc
  refine writeCluster_of_not_mem hc.1 hc.2.2 buf fun hin => ?_
  refine hb.apart hr hcluster hne ht ?_
  unfold InCluster clusterAddr Bpb.clusterBytes at hin
  simp only [Holds, first, sectors]
  omega

theorem FieldsOk.usable (hb : FieldsOk b) : Usable b where
  clusterBytes_ne := by
    have hspc := hb.spc_pos
    unfold Bpb.clusterBytes
    omega
  apart _ _ hr hr' hne _ hs := hb.apart hr hr' hne hs
  fatWrite d _ value hc _ hr hne := hb.fatWrite d value hc hr hne
  slotWrite d buf _ _ _ hr hr' hne hs := hb.slotWrite d buf hr hr' hne hs
  dataWrite d buf _ hc _ hr hne := hb.dataWrite d buf hc hr hne

/-- Without reserved sectors the first FAT copy starts with the boot sector, and without
FAT copies it starts with the root directory or the first cluster. -/
theorem Usable.fieldsOk (hsize : 0 < b.fatSize) (h : Usable b) : FieldsOk b := by
  have hcopy : (fat 0).Exists b := Nat.lt_of_lt_of_le Nat.zero_lt_one (Nat.le_max_left _ _)
  have hspc : b.spc ≠ 0 := by
    intro hzero
    exact h.clusterBytes_ne (by rw [Bpb.clusterBytes, hzero])
  constructor
  case sectorsPerCluster => exact fun hzero => hspc (by rw [Bpb.spc, hzero]; rfl)
  case reservedSectors =>
    intro hzero
    have hlba : b.fatLba = 0 := by rw [Bpb.fatLba, hzero]; rfl
    refine h.apart boot (fat 0) trivial hcopy (by simp) 0 ?_ ?_ <;>
      simp only [Holds, first, sectors] <;> omega
  case fatCount =>
    intro hzero
    have hroot : b.rootDirLba = b.fatLba := by
      rw [Bpb.rootDirLba, hzero]
      simp
    rcases Nat.eq_zero_or_pos b.rootDirSectors with hempty | hpos
    · have hindexed : Indexed b 2 := ⟨le_rfl, by omega, by omega⟩
      have hlba : b.clusterLba 2 = b.fatLba := by
        rw [b.clusterLba_of_two_le le_rfl (by omega), Bpb.dataLba, hroot, hempty]
        simp
      refine h.apart (fat 0) (cluster 2) hcopy hindexed (by simp) b.fatLba ?_ ?_ <;>
        simp only [Holds, first, sectors] <;> omega
    · refine h.apart (fat 0) rootDir hcopy trivial (by simp) b.fatLba ?_ ?_ <;>
        simp only [Holds, first, sectors] <;> omega

theorem fat16Init_bpb {fs fs' : Fs} (h : fat16Init fs = (0, fs')) : fs'.bpb.fatSize16 ≠ 0 := by
  simp only [fat16Init] at h
  split_ifs at h with hsign hbytes hsize
  · exact absurd (Prod.mk.inj h).1 (by decide)
  · exact absurd (Prod.mk.inj h).1 (by decide)
  · exact absurd (Prod.mk.inj h).1 (by decide)
  · obtain ⟨-, rfl⟩ := Prod.mk.inj h
    exact hsize

/-- For every boot sector that `fat16_init` accepts, the geometry is usable exactly when
the three fields it does not check are set. -/
theorem usable_iff_fieldsOk (fs fs' : Fs) (h : fat16Init fs = (0, fs')) :
    Usable fs'.bpb ↔ FieldsOk fs'.bpb := by
  have hne := fat16Init_bpb h
  rw [Ne, ← UInt16.toNat_inj] at hne
  exact ⟨Usable.fieldsOk (Nat.pos_of_ne_zero hne), FieldsOk.usable⟩

/-- The driver before it mounts a disk, on a fresh heap. -/
def unmounted (disk : Disk) : Fs where
  bpb := Bpb.ofSector fun _ => 0
  mounted := false
  disk := disk
  heapStart := 0x111000
  heap := Kheap.kheapInit 0x111000 fun _ => 0

/-- The driver with a disk mounted. -/
def mountedFs (disk : Disk) : Fs :=
  { unmounted disk with bpb := Bpb.ofSector disk, mounted := true }

theorem fat16Init_unmounted {d : Disk} (hsign : d 510 = 0x55 ∧ d 511 = 0xAA)
    (hbytes : (Bpb.ofSector d).bytesPerSector = 512) (hsize : (Bpb.ofSector d).fatSize16 ≠ 0) :
    fat16Init (unmounted d) = (0, mountedFs d) := by
  have hsector : readSector (unmounted d).disk 0 = d := by
    funext x
    rw [readSector_apply _ (by omega)]
    simp [unmounted]
  simp only [fat16Init, hsector]
  rw [if_neg (by simp [hsign.1, hsign.2]), if_neg (not_not.2 hbytes), if_neg hsize]
  rfl

theorem usable_small : Usable (Bpb.ofSector smallBoot) := by
  have hinit : fat16Init (unmounted smallBoot) = (0, mountedFs smallBoot) :=
    fat16Init_unmounted (by decide) (by decide) (by decide)
  exact (usable_iff_fieldsOk _ _ hinit).2 ⟨by decide, by decide, by decide⟩

/-- The small boot record without a cluster size. -/
def zeroClusterBoot : Bytes := fun a => if a = 0x0D then 0 else smallBoot a

theorem not_usable_zeroCluster :
    fat16Init (unmounted zeroClusterBoot) = (0, mountedFs zeroClusterBoot) ∧
      ¬ Usable (mountedFs zeroClusterBoot).bpb := by
  refine ⟨fat16Init_unmounted (by decide) (by decide) (by decide), fun h => ?_⟩
  exact h.clusterBytes_ne (by decide)

end Fat16

end Yotos
