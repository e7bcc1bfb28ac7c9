import Yotos.Fat16.Table

/-!
# What the search for a free cluster hands out

`fat_alloc_cluster` searches as many entries as the sectors of the table hold. That
is neither the number of clusters of the volume, nor the range of cluster numbers
below the reserved codes, nor the range of the 16-bit result, and the search is right
exactly when the first zero entry respects the three other bounds.
-/

namespace Yotos

namespace Fat16

open Bytes

/-- Entry `k` in the second copy of the table. -/
def fat2At (b : Bpb) (d : Disk) (k : ℕ) : ℕ := load16 d (fatAddr b k + 512 * b.fatSize)

/-- The disks differ in the entry of `cluster` at most, in the one or two copies that
`fat_set_entry` keeps. -/
def OnlyEntryChanged (b : Bpb) (d d' : Disk) (cluster : ℕ) : Prop :=
  ∀ a, (a < fatAddr b cluster ∨ fatAddr b cluster + 2 ≤ a) →
    (1 < b.fatCount.toNat → a < fatAddr b cluster + 512 * b.fatSize ∨
      fatAddr b cluster + 512 * b.fatSize + 2 ≤ a) →
    d' a = d a

/-- Either the disk is reported full and unchanged, or the result is a free data
cluster of the volume below the reserved codes, and only its entry changed. -/
def AllocSafe (b : Bpb) (d : Disk) : Prop :=
  ((fatAllocCluster b d).1 = 0 ∧ (fatAllocCluster b d).2 = d) ∨
    (2 ≤ (fatAllocCluster b d).1 ∧ (fatAllocCluster b d).1 < 2 + b.dataClusters ∧
      (fatAllocCluster b d).1 < 0xFFF0 ∧ fatAt b d (fatAllocCluster b d).1 = 0 ∧
      OnlyEntryChanged b d (fatAllocCluster b d).2 (fatAllocCluster b d).1)

/-- `k` is the first zero entry of the table after the two reserved ones. -/
structure FirstZero (b : Bpb) (d : Disk) (k : ℕ) : Prop where
  two_le : 2 ≤ k
  lt : k < 256 * b.fatSize
  zero : fatAt b d k = 0
  first : ∀ j < k, 2 ≤ j → fatAt b d j ≠ 0

/-- Entry 0 already holds the end mark that is about to be stored in it. -/
def ReservedMarked (b : Bpb) (d : Disk) : Prop :=
  fatAt b d 0 = 0xFFFF ∧ (1 < b.fatCount.toNat → fat2At b d 0 = 0xFFFF)

/-- The first zero entry, if there is one, is a data cluster of the volume, or it is
cut to 16 zero bits and the table does not show it. -/
def FirstZeroOk (b : Bpb) (d : Disk) : Prop :=
  ∀ k, FirstZero b d k →
    (k < 2 + b.dataClusters ∧ k < 0xFFF0) ∨ (k % 65536 = 0 ∧ ReservedMarked b d)

variable {b : Bpb} {d : Disk} {k : ℕ}

theorem findFreeCluster_eq_some_iff : findFreeCluster b d = some k ↔ FirstZero b d k := by
  rw [findFreeCluster_eq_some]
  exact ⟨fun ⟨⟨htwo, hlt, hzero⟩, hfirst⟩ => ⟨htwo, hlt, hzero, hfirst⟩,
    fun h => ⟨⟨h.two_le, h.lt, h.zero⟩, h.first⟩⟩

theorem fatAllocCluster_of_firstZero (h : FirstZero b d k) :
    fatAllocCluster b d = (k % 65536, fatSetEntry b d (k % 65536) 0xFFFF) := by
  rw [fatAllocCluster, findFreeCluster_eq_some_iff.2 h]

theorem fatAllocCluster_of_full (h : ∀ k, ¬ FirstZero b d k) : fatAllocCluster b d = (0, d) := by
  cases hfind : findFreeCluster b d with
  | none => rw [fatAllocCluster, hfind]
  | some k => exact absurd (findFreeCluster_eq_some_iff.1 hfind) (h k)

theorem fatSetEntry_onlyEntryChanged (b : Bpb) (d : Disk) {cluster : ℕ} (h : cluster < 65536)
    (value : ℕ) : OnlyEntryChanged b d (fatSetEntry b d cluster value) cluster :=
  fun _ ha ha₂ => fatSetEntry_of_apart h ha ha₂

/-- Marking entry 0 is invisible exactly when it is marked already. -/
theorem fatSetEntry_zero_eq_self (hsize : 1 ≤ b.fatSize) :
    fatSetEntry b d 0 0xFFFF = d ↔ ReservedMarked b d := by
  rw [fatSetEntry_eq (by omega)]
  dsimp only
  constructor
  · intro h
    split_ifs at h with hcount
    · refine ⟨?_, fun _ => ?_⟩
      · rw [fatAt, ← h, load16_store16_of_apart _ _ (by omega), load16_store16]
      · rw [fat2At, ← h, load16_store16]
    · refine ⟨?_, fun htwo => absurd htwo hcount⟩
      rw [fatAt, ← h, load16_store16]
  · rintro ⟨hfirst, hsecond⟩
    have hself : store16 d (fatAddr b 0) 0xFFFF = d := by
      rw [← hfirst, fatAt, store16_load16]
    split_ifs with hcount
    · rw [hself, ← hsecond hcount, fat2At, store16_load16]
    · exact hself

/-- A first zero entry below the cut is handed out as it is. -/
theorem allocSafe_iff_of_lt (h : FirstZero b d k) (hlt : k < 65536) :
    AllocSafe b d ↔ k < 2 + b.dataClusters ∧ k < 0xFFF0 := by
  have htwo := h.two_le
  rw [AllocSafe, fatAllocCluster_of_firstZero h, Nat.mod_eq_of_lt hlt]
  constructor
  · rintro (⟨hzero, -⟩ | ⟨-, hvolume, hcode, -⟩)
    · exact absurd hzero (by dsimp only; omega)
    · exact ⟨hvolume, hcode⟩
  · rintro ⟨hvolume, hcode⟩
    exact Or.inr ⟨htwo, hvolume, hcode, h.zero, fatSetEntry_onlyEntryChanged b d hlt _⟩

/-- A first zero entry past the cut stands for a smaller one, which is not zero. -/
theorem allocSafe_iff_of_le (h : FirstZero b d k) (hle : 65536 ≤ k) :
    AllocSafe b d ↔ k % 65536 = 0 ∧ ReservedMarked b d := by
  have hsize : 1 ≤ b.fatSize := by
    have := h.lt
    omega
  rw [AllocSafe, fatAllocCluster_of_firstZero h]
  constructor
  · rintro (⟨hzero, hsame⟩ | ⟨htwo, -, -, hfree, -⟩)
    · dsimp only at hzero hsame
      rw [hzero] at hsame
      exact ⟨hzero, (fatSetEntry_zero_eq_self hsize).1 hsame⟩
    · exact absurd hfree (h.first _ (by dsimp only; omega) htwo)
  · rintro ⟨hzero, hmarked⟩
    refine Or.inl ⟨hzero, ?_⟩
    dsimp only
    rw [hzero]
    exact (fatSetEntry_zero_eq_self hsize).2 hmarked

theorem allocSafe_iff_of_firstZero (h : FirstZero b d k) :
    AllocSafe b d ↔ (k < 2 + b.dataClusters ∧ k < 0xFFF0) ∨
      (k % 65536 = 0 ∧ ReservedMarked b d) := by
  have htwo := h.two_le
  rcases Nat.lt_or_ge k 65536 with hlt | hge
  · rw [allocSafe_iff_of_lt h hlt]
    exact ⟨Or.inl, fun hor => hor.resolve_right fun hzero => by omega⟩
  · rw [allocSafe_iff_of_le h hge]
    exact ⟨Or.inr, fun hor => hor.resolve_left fun hcode => by omega⟩

/-- For every boot record and every table, an allocation is right exactly when the
first zero entry of the table is a cluster that may be handed out. -/
theorem allocSafe_iff_firstZeroOk (b : Bpb) (d : Disk) :
    AllocSafe b d ↔ FirstZeroOk b d := by
  refine ⟨fun h k hk => (allocSafe_iff_of_firstZero hk).1 h, fun h => ?_⟩
  by_cases hfull : ∃ k, FirstZero b d k
  · obtain ⟨k, hk⟩ := hfull
    exact (allocSafe_iff_of_firstZero hk).2 (h k hk)
  · left
    rw [fatAllocCluster_of_full fun k hk => hfull ⟨k, hk⟩]
    exact ⟨rfl, rfl⟩

/-- A boot record for one reserved sector, one FAT of one sector, 16 root entries and
10 sectors in all: 7 data clusters. -/
def smallBoot : Bytes := fun a =>
  if a = 510 then 0x55 else if a = 511 then 0xAA
  else if a = 0x0C then 2 else if a = 0x0D then 1 else if a = 0x0E then 1
  else if a = 0x10 then 1 else if a = 0x11 then 16 else if a = 0x13 then 10
  else if a = 0x16 then 1 else 0

/-- The small volume with every data cluster in use. -/
def fullDisk : Disk := fun a => if 512 ≤ a ∧ a < 512 + 2 * 9 then 0xFF else smallBoot a

/-- The driver before it mounts the full volume. -/
def fullFs : Fs where
  bpb := Bpb.ofSector fullDisk
  mounted := false
  disk := fullDisk
  heapStart := 0
  heap := fun _ => 0

theorem fullDisk_firstZero : FirstZero (Bpb.ofSector fullDisk) fullDisk 9 where
  two_le := by omega
  lt := by decide
  zero := by decide
  first := by decide

/-- The volume is mounted and full, and cluster 9, past its end, is handed out. -/
theorem not_allocSafe_fullDisk :
    (fat16Init fullFs).1 = 0 ∧
      ¬ AllocSafe (fat16Init fullFs).2.bpb (fat16Init fullFs).2.disk := by
  have hinit : fat16Init fullFs = (0, { fullFs with mounted := true }) := by
    simp only [fat16Init]
    rw [if_neg (by decide), if_neg (by decide), if_neg (by decide)]
    rfl
  rw [hinit]
  refine ⟨rfl, fun h => ?_⟩
  have hlt := ((allocSafe_iff_of_lt fullDisk_firstZero (by omega)).1 h).1
  exact absurd hlt (by decide)

end Fat16

end Yotos
