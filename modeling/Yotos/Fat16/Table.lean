import Yotos.Library.Search
import Yotos.Fat16.Disk

/-!
# The file allocation table

`fat_entry`, `fat_set_entry`, `fat_alloc_cluster` and `fat_free_chain` of
`fs/fat16.c`. Over them, `fatAt` is the table as the disk stores it, indexed by all
the entries that the first copy holds: the functions of the driver take a 16-bit
cluster, but the search for a free one runs over the whole copy.
-/

namespace Yotos

namespace Fat16

open Bytes Library

/-- `fat_entry`. -/
def fatEntry (b : Bpb) (d : Disk) (cluster : ℕ) : ℕ :=
  let byteOff := 2 * cluster
  load16 (readSector d (b.fatLba + byteOff / 512)) (byteOff % 512)

/-- `fat_set_entry`: the second copy of the table is written as well when there is
one. -/
def fatSetEntry (b : Bpb) (d : Disk) (cluster value : ℕ) : Disk :=
  let byteOff := 2 * cluster
  let fatSector := b.fatLba + byteOff / 512
  let d := writeSector d fatSector (store16 (readSector d fatSector) (byteOff % 512) value)
  if 1 < b.fatCount.toNat then
    let fat2Sector := b.fatLba + b.fatSize + byteOff / 512
    writeSector d fat2Sector (store16 (readSector d fat2Sector) (byteOff % 512) value)
  else d

/-- The two loops of `fat_alloc_cluster`: the first zero entry. -/
def findFreeCluster (b : Bpb) (d : Disk) : Option ℕ :=
  (List.range b.fatSize).findSome? fun s =>
    let buf := readSector d (b.fatLba + s)
    (List.range 256).findSome? fun i =>
      let cluster := 256 * s + i
      if cluster < 2 then none
      else if load16 buf (2 * i) = 0 then some cluster
      else none

/-- `fat_alloc_cluster`: the cluster number is cut to 16 bits. -/
def fatAllocCluster (b : Bpb) (d : Disk) : ℕ × Disk :=
  match findFreeCluster b d with
  | some cluster => (cluster % 65536, fatSetEntry b d (cluster % 65536) 0xFFFF)
  | none => (0, d)

/-- A cluster number that the chain loops follow: neither free, reserved nor an end
mark. -/
def isCluster (cluster : ℕ) : Bool := 2 ≤ cluster ∧ cluster < 0xFFF8

/-- `fat_free_chain`. -/
def fatFreeChain (b : Bpb) : (fuel cluster : ℕ) → Disk → Option Disk
  | 0, cluster, d => if isCluster cluster then none else some d
  | fuel + 1, cluster, d =>
      if isCluster cluster then
        fatFreeChain b fuel (fatEntry b d cluster) (fatSetEntry b d cluster 0)
      else some d

theorem isCluster_iff {cluster : ℕ} : isCluster cluster ↔ 2 ≤ cluster ∧ cluster < 0xFFF8 :=
  decide_eq_true_iff

/-- The address of entry `k` in the first copy of the table. -/
def fatAddr (b : Bpb) (k : ℕ) : ℕ := 512 * b.fatLba + 2 * k

/-- Entry `k` of the table. -/
def fatAt (b : Bpb) (d : Disk) (k : ℕ) : ℕ := load16 d (fatAddr b k)

theorem fatAt_lt (b : Bpb) (d : Disk) (k : ℕ) : fatAt b d k < 65536 := load16_lt _ _

variable {b : Bpb} {d d' : Disk} {cluster value k : ℕ}

/-- The sector of an entry and its place there. -/
theorem fatAddr_split (b : Bpb) (k : ℕ) :
    512 * (b.fatLba + 2 * k / 512) + 2 * k % 512 = fatAddr b k := by
  unfold fatAddr
  omega

theorem fatEntry_eq (h : cluster < 65536) : fatEntry b d cluster = fatAt b d cluster := by
  have hlba := b.fatLba_lt
  have hlt : b.fatLba + 2 * cluster / 512 < 2 ^ 28 := by omega
  simp only [fatEntry]
  rw [load16_readSector d hlt, fatAddr_split]
  rfl

/-- Storing two bytes in a sector, read and written back. -/
theorem writeSector_store16 (d : Disk) (value : ℕ) {lba x : ℕ} (h : lba < 2 ^ 28)
    (hx : x + 2 ≤ 512) :
    writeSector d lba (store16 (readSector d lba) x value) = store16 d (512 * lba + x) value := by
  refine writeSector_patch d _ _ h (fun y hy => ?_) fun a ha => store16_of_apart _ _ (by omega)
  simp only [store16, store8, readSector_apply d h, Nat.add_right_inj, Nat.add_assoc]

theorem fatSetEntry_eq (h : cluster < 65536) :
    fatSetEntry b d cluster value =
      let d := store16 d (fatAddr b cluster) value
      if 1 < b.fatCount.toNat then
        store16 d (fatAddr b cluster + 512 * b.fatSize) value
      else d := by
  have hlba := b.fatLba_lt
  have hsize := b.fatSize_lt
  have hlt : b.fatLba + 2 * cluster / 512 < 2 ^ 28 := by omega
  have hlt₂ : b.fatLba + b.fatSize + 2 * cluster / 512 < 2 ^ 28 := by omega
  have hin : 2 * cluster % 512 + 2 ≤ 512 := by omega
  have haddr₂ : 512 * (b.fatLba + b.fatSize + 2 * cluster / 512) + 2 * cluster % 512 =
      fatAddr b cluster + 512 * b.fatSize := by
    unfold fatAddr
    omega
  simp only [fatSetEntry]
  rw [writeSector_store16 d value hlt hin, fatAddr_split,
    writeSector_store16 _ value hlt₂ hin, haddr₂]

/-- A byte outside the table keeps its value. -/
theorem fatSetEntry_of_apart (h : cluster < 65536) {a : ℕ}
    (ha : a < fatAddr b cluster ∨ fatAddr b cluster + 2 ≤ a)
    (ha₂ : 1 < b.fatCount.toNat → a < fatAddr b cluster + 512 * b.fatSize ∨
      fatAddr b cluster + 512 * b.fatSize + 2 ≤ a) :
    fatSetEntry b d cluster value a = d a := by
  rw [fatSetEntry_eq h]
  dsimp only
  split_ifs with hcount
  · rw [store16_of_apart _ _ (ha₂ hcount), store16_of_apart _ _ ha]
  · exact store16_of_apart _ _ ha

theorem fatAt_fatSetEntry_self (h : cluster < 65536) (hin : cluster < 256 * b.fatSize)
    (hvalue : value < 65536) : fatAt b (fatSetEntry b d cluster value) cluster = value := by
  rw [fatSetEntry_eq h, fatAt]
  dsimp only
  split_ifs
  · rw [load16_store16_of_apart _ _ (by omega), load16_store16, Nat.mod_eq_of_lt hvalue]
  · rw [load16_store16, Nat.mod_eq_of_lt hvalue]

theorem fatAt_fatSetEntry_of_ne (h : cluster < 65536)
    (hk : k < 256 * b.fatSize) (hne : k ≠ cluster) :
    fatAt b (fatSetEntry b d cluster value) k = fatAt b d k := by
  refine load16_congr fun x hx hx' => fatSetEntry_of_apart h ?_ fun _ => ?_ <;>
    simp only [fatAddr] at * <;> omega

/-- Only bytes of the FAT area are written. -/
theorem fatSetEntry_outside (h : cluster < 65536) (hin : cluster < 256 * b.fatSize)
    (hcount : 1 ≤ b.fatCount.toNat) {a : ℕ} (ha : 512 * b.rootDirLba ≤ a) :
    fatSetEntry b d cluster value a = d a := by
  have hroot : b.fatLba + b.fatSize ≤ b.rootDirLba := by
    have := Nat.mul_le_mul_right b.fatSize hcount
    unfold Bpb.rootDirLba
    omega
  have hroot₂ (htwo : 1 < b.fatCount.toNat) : b.fatLba + 2 * b.fatSize ≤ b.rootDirLba := by
    have := Nat.mul_le_mul_right b.fatSize htwo
    unfold Bpb.rootDirLba
    omega
  refine fatSetEntry_of_apart h (Or.inr ?_) fun htwo => Or.inr ?_
  · simp only [fatAddr]
    omega
  · have := hroot₂ htwo
    simp only [fatAddr]
    omega

/-- One step of the search, for entry `k`. -/
theorem findFreeCluster_eq (b : Bpb) (d : Disk) :
    findFreeCluster b d = (List.range b.fatSize).findSome? fun s =>
      (List.range 256).findSome? fun i =>
        if 2 ≤ 256 * s + i ∧ fatAt b d (256 * s + i) = 0 then some (256 * s + i) else none := by
  have hlba := b.fatLba_lt
  have hsize := b.fatSize_lt
  refine findSome?_congr_range fun s hs => findSome?_congr_range fun i _ => ?_
  have hlt : b.fatLba + s < 2 ^ 28 := by omega
  have haddr : 512 * (b.fatLba + s) + 2 * i = fatAddr b (256 * s + i) := by
    unfold fatAddr
    omega
  rw [load16_readSector d hlt, haddr, ← fatAt]
  by_cases htwo : 256 * s + i < 2
  · rw [if_pos htwo, if_neg (by omega)]
  · by_cases hzero : fatAt b d (256 * s + i) = 0
    · rw [if_neg htwo, if_pos hzero, if_pos ⟨by omega, hzero⟩]
    · rw [if_neg htwo, if_neg hzero, if_neg fun h => hzero h.2]

theorem findFreeCluster_eq_none :
    findFreeCluster b d = none ↔ ∀ k < 256 * b.fatSize, 2 ≤ k → fatAt b d k ≠ 0 := by
  simp only [findFreeCluster_eq, findSome?_range_eq_none, ite_eq_right_iff, reduceCtorEq,
    imp_false, not_and]
  constructor
  · intro h k hk htwo
    have hsplit : 256 * (k / 256) + k % 256 = k := Nat.div_add_mod k 256
    have := h (k / 256) (by omega) (k % 256) (by omega)
    rw [hsplit] at this
    exact this htwo
  · intro h s hs i hi htwo
    exact h _ (by omega) htwo

/-- The search finds the first zero entry from 2 on. -/
theorem findFreeCluster_eq_some :
    findFreeCluster b d = some k ↔ (2 ≤ k ∧ k < 256 * b.fatSize ∧ fatAt b d k = 0) ∧
      ∀ j < k, 2 ≤ j → fatAt b d j ≠ 0 := by
  simp only [findFreeCluster_eq, findSome?_range_eq_some, findSome?_range_eq_none,
    Option.ite_none_right_eq_some, Option.some.injEq, ite_eq_right_iff, reduceCtorEq,
    imp_false, not_and]
  constructor
  · rintro ⟨s, hs, ⟨i, hi, ⟨⟨htwo, hzero⟩, rfl⟩, hrow⟩, hrows⟩
    refine ⟨⟨htwo, by omega, hzero⟩, fun j hj htwo' => ?_⟩
    have hsplit : 256 * (j / 256) + j % 256 = j := Nat.div_add_mod j 256
    rcases Nat.lt_or_ge (j / 256) s with hlt | hge
    · have := hrows (j / 256) hlt (j % 256) (by omega)
      rw [hsplit] at this
      exact this htwo'
    · have hs' : j / 256 = s := by omega
      have := hrow (j % 256) (by omega)
      rw [← hs', hsplit] at this
      exact this htwo'
  · rintro ⟨⟨htwo, hk, hzero⟩, hfirst⟩
    have hsplit : 256 * (k / 256) + k % 256 = k := Nat.div_add_mod k 256
    refine ⟨k / 256, by omega, ⟨k % 256, by omega, ?_, fun i hi htwo' => ?_⟩,
      fun s hs i hi htwo' => ?_⟩
    · rw [hsplit]
      exact ⟨⟨htwo, hzero⟩, rfl⟩
    · exact hfirst _ (by omega) htwo'
    · exact hfirst _ (by omega) htwo'

end Fat16

end Yotos
