import Yotos.Fat16.Copies
import Yotos.Fat16.Faults

/-!
# What failing reads destroy

A call of `fat16_vfs_create` or `fat16_vfs_write` during which reads fail. Until a buffer
from a failed read does harm, the call works on free clusters and those of its file, and on
its own directory slot. Harm comes from a sector that is written back with zeros for bytes
that matter to others, and from a cluster that is taken although it is in use.
-/

namespace Yotos

namespace Fat16

open Bytes Kheap Library

namespace Faulty

variable {b : Bpb} {d₀ : Disk} {l : List ℕ} {slot : ℕ}

/-- The cluster was in use before the call, and is not in the chain of the written file. -/
def Taken (b : Bpb) (d₀ : Disk) (l : List ℕ) (c : ℕ) : Prop :=
  InUse (clusterTop b) c ∧ fatAt b d₀ c ≠ 0 ∧ c ∉ l

/-- The bytes that are not the call's: the table entries of such clusters, in both copies,
and every directory slot but its own. -/
inductive Foreign (b : Bpb) (d₀ : Disk) (l : List ℕ) (slot : ℕ) : ℕ → Prop
  | entry {c i : ℕ} (hc : Taken b d₀ l c) (hi : i < 2) : Foreign b d₀ l slot (fatAddr b c + i)
  | copy {c i : ℕ} (htwo : 1 < b.fatCount.toNat) (hc : Taken b d₀ l c) (hi : i < 2) :
      Foreign b d₀ l slot (fatAddr b c + 512 * b.fatSize + i)
  | slot {dir k i : ℕ} (hdir : IsDir b d₀ dir) (hk : HasSlot b d₀ dir k)
      (hne : slotAddr b d₀ dir k ≠ slot) (hi : i < 32) :
      Foreign b d₀ l slot (slotAddr b d₀ dir k + i)

/-- The table entries of the clusters in use, and the directory slots, are as before the
call. -/
structure Spares (b : Bpb) (d₀ : Disk) (l : List ℕ) (slot : ℕ) (d : Disk) : Prop where
  entry : ∀ c, Taken b d₀ l c → fatAt b d c = fatAt b d₀ c
  copy : 1 < b.fatCount.toNat → ∀ c, Taken b d₀ l c → fat2At b d c = fat2At b d₀ c
  slots : ∀ dir k, IsDir b d₀ dir → HasSlot b d₀ dir k → slotAddr b d₀ dir k ≠ slot →
    ∀ i < 32, entryAt d (slotAddr b d₀ dir k) i = entryAt d₀ (slotAddr b d₀ dir k) i

/-- Sector `lba` has a byte of others that is not zero, outside the `n` bytes from `x` on. -/
def Loses (b : Bpb) (d₀ : Disk) (l : List ℕ) (slot lba x n : ℕ) : Prop :=
  ∃ y < 512, (y < x ∨ x + n ≤ y) ∧ Foreign b d₀ l slot (512 * lba + y) ∧ d₀ (512 * lba + y) ≠ 0

/-- No cluster in use is taken and no slot but its own filled. Then the disks are as they
should be while no sector is written back at a loss. -/
def losses (b : Bpb) (d₀ : Disk) (l : List ℕ) (slot : ℕ) : Contract Event where
  given
    | .offer c => ¬ Taken b d₀ l c
    | .fill a => a = slot
    | _ => True
  check
    | .blind lba x n => ¬ Loses b d₀ l slot lba x n
    | _ => True
  ensures
    | .wrote d => Spares b d₀ l slot d
    | _ => True

/-- The disks agree on the foreign bytes. -/
theorem spares_iff {d : Disk} : Spares b d₀ l slot d ↔ ∀ x, Foreign b d₀ l slot x → d x = d₀ x := by
  constructor
  · rintro ⟨hentry, hcopy, hslots⟩ x hx
    cases hx with
    | entry hc hi => exact load16_eq_iff.1 (hentry _ hc) _ hi
    | copy htwo hc hi => exact load16_eq_iff.1 (hcopy htwo _ hc) _ hi
    | slot hdir hk hne hi => exact hslots _ _ hdir hk hne _ hi
  · intro h
    refine ⟨fun c hc => ?_, fun htwo c hc => ?_, fun dir k hdir hk hne i hi => ?_⟩
    · exact load16_eq_iff.2 fun i hi => h _ (.entry hc hi)
    · exact load16_eq_iff.2 fun i hi => h _ (.copy htwo hc hi)
    · exact h _ (.slot hdir hk hne hi)

/-! ## Bytes that are the call's own -/

/-- What is known of a call: `l` is no cluster of a directory, and a zero entry is a
cluster's. -/
structure Setting (b : Bpb) (d₀ : Disk) (l : List ℕ) : Prop where
  layout : Layout b
  free : FreeBelow b (clusterTop b) d₀
  dirs : ∀ dir, IsDir b d₀ dir → ∃ m, FileChain b (clusterTop b) d₀ dir m ∧ ∀ c ∈ m, c ∉ l

variable {c i x : ℕ}

/-- The clusters of directories are taken. -/
theorem Setting.taken (h : Setting b d₀ l) {dir : ℕ} {m : List ℕ}
    (hdir : IsDir b d₀ dir) (hm : FileChain b (clusterTop b) d₀ dir m) (hc : c ∈ m) :
    Taken b d₀ l c := by
  obtain ⟨m', hm', hno⟩ := h.dirs dir hdir
  obtain rfl := hm.unique h.layout.geometry hm'
  exact ⟨hm.inUse hc, hm.fatAt_ne_zero hc, hno c hc⟩

theorem Taken.lt_table (hc : Taken b d₀ l c) : c < 256 * b.fatSize :=
  Nat.lt_of_lt_of_le hc.1.2 (Nat.min_le_right _ _)

theorem copies_le (hb : Layout b) :
    b.fatLba + b.fatSize ≤ b.rootDirLba ∧
      (1 < b.fatCount.toNat → b.fatLba + 2 * b.fatSize ≤ b.rootDirLba) := by
  refine ⟨?_, fun htwo => ?_⟩
  · have := Nat.mul_le_mul_right b.fatSize hb.fatCount_pos
    unfold Bpb.rootDirLba
    omega
  · have := Nat.mul_le_mul_right b.fatSize htwo
    unfold Bpb.rootDirLba
    omega

/-- A foreign byte of the table lies in front of the directories. -/
theorem Foreign.cases (h : Setting b d₀ l) (hx : Foreign b d₀ l slot x) :
    (x < 512 * b.rootDirLba ∧ ∃ c i, Taken b d₀ l c ∧ i < 2 ∧
        (x = fatAddr b c + i ∨ x = fatAddr b c + 512 * b.fatSize + i)) ∨
      512 * b.rootDirLba ≤ x ∧ ∃ dir k i, IsDir b d₀ dir ∧ HasSlot b d₀ dir k ∧
        slotAddr b d₀ dir k ≠ slot ∧ i < 32 ∧ x = slotAddr b d₀ dir k + i := by
  obtain ⟨hone, hboth⟩ := copies_le h.layout
  cases hx with
  | @entry c i hc hi =>
      have hlt := hc.lt_table
      refine Or.inl ⟨?_, c, i, hc, hi, Or.inl rfl⟩
      rw [fatAddr]
      omega
  | @copy c i htwo hc hi =>
      have hlt := hc.lt_table
      have := hboth htwo
      refine Or.inl ⟨?_, c, i, hc, hi, Or.inr rfl⟩
      rw [fatAddr]
      omega
  | @slot dir k i hdir hk hne hi =>
      refine Or.inr ⟨?_, dir, k, i, hdir, hk, hne, hi, rfl⟩
      obtain ⟨m, hm, -⟩ := h.dirs dir hdir
      rcases slot_cases h.layout.geometry hm hk hi with ⟨hroot, -⟩ | ⟨c, hc, hin⟩
      · exact hroot
      · have huse := hm.inUse hc
        exact (rootAddr_le_dataAddr b).trans
          (dataAddr_le_of_inCluster huse.1 (huse.lt h.layout.geometry) hin)

/-- The entry of a cluster that is not taken, in the first copy. -/
theorem not_foreign_entry (h : Setting b d₀ l) (hc : ¬ Taken b d₀ l c)
    (hlt : c < 256 * b.fatSize) (hi : i < 2) : ¬ Foreign b d₀ l slot (fatAddr b c + i) := by
  obtain ⟨hone, -⟩ := copies_le h.layout
  intro hx
  rcases hx.cases h with ⟨-, c', i', hc', hi', heq | heq⟩ | ⟨hroot, -⟩
  · obtain rfl : c = c' := by
      unfold fatAddr at heq
      omega
    exact hc hc'
  · unfold fatAddr at heq
    omega
  · unfold fatAddr at hroot
    omega

/-- The same in the second copy. -/
theorem not_foreign_copy (h : Setting b d₀ l) (htwo : 1 < b.fatCount.toNat)
    (hc : ¬ Taken b d₀ l c) (hlt : c < 256 * b.fatSize) (hi : i < 2) :
    ¬ Foreign b d₀ l slot (fatAddr b c + 512 * b.fatSize + i) := by
  obtain ⟨-, hboth⟩ := copies_le h.layout
  have hboth := hboth htwo
  intro hx
  rcases hx.cases h with ⟨-, c', i', hc', hi', heq | heq⟩ | ⟨hroot, -⟩
  · have := hc'.lt_table
    unfold fatAddr at heq
    omega
  · obtain rfl : c = c' := by
      unfold fatAddr at heq
      omega
    exact hc hc'
  · unfold fatAddr at hroot
    omega

/-- The bytes of the slot. -/
theorem not_foreign_slot (h : Setting b d₀ l) (hmod : slot % 32 = 0)
    (hroot : 512 * b.rootDirLba ≤ slot) (hi : i < 32) : ¬ Foreign b d₀ l slot (slot + i) := by
  intro hx
  rcases hx.cases h with ⟨hlt, -⟩ | ⟨-, dir, k, i', -, -, hne, hi', heq⟩
  · omega
  · have := slotAddr_mod b d₀ dir k
    omega

/-- The bytes of a cluster that is not taken. -/
theorem not_foreign_cluster (h : Setting b d₀ l) (htwo : 2 ≤ c) (hlt : c < 65536)
    (hc : ¬ Taken b d₀ l c) (hin : InCluster b c x) : ¬ Foreign b d₀ l slot x := by
  have hdata := dataAddr_le_of_inCluster htwo hlt hin
  have hroot := rootAddr_le_dataAddr b
  intro hx
  rcases hx.cases h with ⟨hlt', -⟩ | ⟨-, dir, k, i', hdir, hk, -, hi', rfl⟩
  · omega
  · obtain ⟨m, hm, -⟩ := h.dirs dir hdir
    rcases slot_cases h.layout.geometry hm hk hi' with ⟨-, hlt'⟩ | ⟨c', hc', hin'⟩
    · omega
    · have huse := hm.inUse hc'
      obtain rfl := inCluster_unique htwo hlt huse.1 (huse.lt h.layout.geometry) hin hin'
      exact hc (h.taken hdir hm hc')

/-! ## One sector -/

variable {d : Disk} {s : Drive} {lba n value : ℕ} {buf : Bytes} {faults : ℕ → Bool} {F : Set ℕ}

theorem spares_refl : Spares b d₀ l slot d₀ := spares_iff.2 fun _ _ => rfl

theorem spares_writeSector (h : Spares b d₀ l slot d) (hlba : lba < 2 ^ 28)
    (hbuf : ∀ y < 512, Foreign b d₀ l slot (512 * lba + y) → buf y = d₀ (512 * lba + y)) :
    Spares b d₀ l slot (writeSector d lba buf) := by
  refine spares_iff.2 fun x hx => ?_
  by_cases hout : x < 512 * lba ∨ 512 * lba + 512 ≤ x
  · rw [writeSector_of_apart d buf hlba hout]
    exact spares_iff.1 h x hx
  · obtain ⟨y, rfl⟩ := Nat.exists_eq_add_of_le (show 512 * lba ≤ x by omega)
    rw [writeSector_of_mem d buf hlba (by omega)]
    exact hbuf y (by omega) hx

/-- A sector is written back: with what was read, or with zeros, which either harm nothing
or are a loss. -/
theorem writeBack_sat {failed : Bool} (h : Spares b d₀ l slot s.disk) (hlba : lba < 2 ^ 28)
    (hin : ∀ y, x ≤ y → y < x + n → ¬ Foreign b d₀ l slot (512 * lba + y))
    (hout : ∀ y < 512, y < x ∨ x + n ≤ y → buf y = if failed then 0 else s.disk (512 * lba + y)) :
    (writeBack lba x n failed buf s).Sat (losses b d₀ l slot) fun _ s' =>
      Spares b d₀ l slot s'.disk ∧ s'.disk = writeSector s.disk lba buf := by
  have heq : writeBack lba x n failed buf s =
      .note (.wrote (writeSector s.disk lba buf) :: if failed then [.blind lba x n] else []) ()
        { s with disk := writeSector s.disk lba buf } := rfl
  rw [heq]
  refine Traced.Sat.note fun _ => ?_
  by_cases hloss : failed = true ∧ Loses b d₀ l slot lba x n
  · obtain ⟨rfl, hloses⟩ := hloss
    refine Or.inr ⟨⟨.blind lba x n, by simp, not_not.2 hloses⟩,
      .wrote (writeSector s.disk lba buf), by simp, fun hsp => ?_⟩
    obtain ⟨y, hy, hyx, hforeign, hne⟩ := hloses
    have hbyte := spares_iff.1 hsp _ hforeign
    rw [writeSector_of_mem s.disk buf hlba hy, hout y hy hyx] at hbyte
    exact hne hbyte.symm
  · have hsp : Spares b d₀ l slot (writeSector s.disk lba buf) := by
      refine spares_writeSector h hlba fun y hy hforeign => ?_
      have hyx : y < x ∨ x + n ≤ y := by
        by_contra hno
        exact hin y (by omega) (by omega) hforeign
      rw [hout y hy hyx]
      split_ifs with hfailed
      · by_contra hne
        exact hloss ⟨hfailed, y, hy, hyx, hforeign, fun hzero => hne hzero.symm⟩
      · exact spares_iff.1 h _ hforeign
    refine Or.inl ⟨fun e he => ?_, hsp, rfl⟩
    rcases List.mem_cons.1 he with rfl | he
    · exact ⟨trivial, hsp⟩
    · split_ifs at he with hfailed
      · obtain rfl := List.mem_singleton.1 he
        exact ⟨fun hloses => hloss ⟨hfailed, hloses⟩, trivial⟩
      · cases he

theorem ataWriteSector_sat (h : Spares b d₀ l slot s.disk) (hlba : lba < 2 ^ 28)
    (hin : ∀ y < 512, ¬ Foreign b d₀ l slot (512 * lba + y)) :
    (ataWriteSector lba buf s).Sat (losses b d₀ l slot) fun _ s' =>
      Spares b d₀ l slot s'.disk ∧ s'.disk = writeSector s.disk lba buf := by
  have hsp : Spares b d₀ l slot (writeSector s.disk lba buf) :=
    spares_writeSector h hlba fun y hy hforeign => absurd hforeign (hin y hy)
  refine Traced.Sat.note fun _ => Or.inl ⟨fun e he => ?_, hsp, rfl⟩
  obtain rfl := List.mem_singleton.1 he
  exact ⟨trivial, hsp⟩

theorem fatEntry_sat (K : Contract Event) (hc : c < 65536) :
    (fatEntry faults b c s).Sat K fun v s' =>
      s'.disk = s.disk ∧ (v = 0 ∨ v = fatAt b s.disk c) := by
  rw [fatEntry, ataReadSector_bind]
  refine Traced.Sat.ret ⟨rfl, ?_⟩
  dsimp only
  split_ifs
  · exact Or.inl rfl
  · exact Or.inr (fatEntry_eq hc)

/-! ## The table -/

/-- One copy of the entry of a cluster that is not taken. The other bytes of its sector are
kept, or they are all zero now. -/
theorem setEntryIn_sat (h : Spares b d₀ l slot s.disk) (hlba : lba < 2 ^ 28) (hx : x + 2 ≤ 512)
    (hin : ∀ i < 2, ¬ Foreign b d₀ l slot (512 * lba + x + i)) :
    (setEntryIn faults lba x value s).Sat (losses b d₀ l slot) fun _ s' =>
      Spares b d₀ l slot s'.disk ∧ load16 s'.disk (512 * lba + x) = value % 65536 ∧
        (∀ a, a < 512 * lba ∨ 512 * lba + 512 ≤ a → s'.disk a = s.disk a) ∧
        ((∀ a, a < 512 * lba + x ∨ 512 * lba + x + 2 ≤ a → s'.disk a = s.disk a) ∨
          ∀ a, 512 * lba ≤ a → a < 512 * lba + 512 →
            a < 512 * lba + x ∨ 512 * lba + x + 2 ≤ a → s'.disk a = 0) := by
  rw [setEntryIn, ataReadSector_bind]
  refine Traced.Sat.mono (writeBack_sat h hlba (fun y hy hy' => ?_) fun y hy hyx => ?_) ?_
  · obtain ⟨i, rfl⟩ := Nat.exists_eq_add_of_le hy
    rw [← Nat.add_assoc]
    exact hin i (by omega)
  · dsimp only
    rw [store16_of_apart _ _ (by omega)]
    split_ifs
    · rfl
    · exact readSector_apply s.disk hlba y
  · rintro _ s' ⟨hsp, heq⟩
    have hout : ∀ a, a < 512 * lba ∨ 512 * lba + 512 ≤ a → s'.disk a = s.disk a := fun a ha => by
      rw [heq, writeSector_of_apart _ _ hlba ha]
    refine ⟨hsp, ?_, hout, ?_⟩
    · rw [heq, ← load16_store16 (if faults s.reads then fun _ => 0 else readSector s.disk lba) x]
      rw [load16, load16, Nat.add_assoc, writeSector_of_mem _ _ hlba (by omega),
        writeSector_of_mem _ _ hlba (by omega)]
    · have hbyte : ∀ y < 512, y < x ∨ x + 2 ≤ y → s'.disk (512 * lba + y) =
          if faults s.reads then 0 else s.disk (512 * lba + y) := fun y hy hyx => by
        rw [heq, writeSector_of_mem _ _ hlba hy, store16_of_apart _ _ (by omega)]
        split_ifs
        · rfl
        · exact readSector_apply s.disk hlba y
      by_cases hfailed : faults s.reads = true
      · refine Or.inr fun a ha ha' hax => ?_
        obtain ⟨y, rfl⟩ := Nat.exists_eq_add_of_le ha
        rw [hbyte y (by omega) (by omega), if_pos hfailed]
      · refine Or.inl fun a hax => ?_
        by_cases ha : a < 512 * lba ∨ 512 * lba + 512 ≤ a
        · exact hout a ha
        · obtain ⟨y, rfl⟩ := Nat.exists_eq_add_of_le (show 512 * lba ≤ a by omega)
          rw [hbyte y (by omega) (by omega), if_neg hfailed]

/-- What holds of the disk while the call goes on with the clusters in `F`: nothing foreign
has changed, and the links of its clusters stay among them. -/
structure Good (b : Bpb) (d₀ : Disk) (l : List ℕ) (slot : ℕ) (F : Set ℕ) (d : Disk) : Prop where
  spares : Spares b d₀ l slot d
  high : ∀ k, 65536 ≤ k → k < 256 * b.fatSize → fatAt b d k = fatAt b d₀ k
  mine : ∀ c ∈ F, 2 ≤ c ∧ c < 65536 ∧ c < 256 * b.fatSize ∧ ¬ Taken b d₀ l c
  next : ∀ c ∈ F, isCluster (fatAt b d c) = true → fatAt b d c ∈ F

/-- The entry of a cluster that is not taken, in all copies. The other entries are kept, or
zero now. -/
theorem fatSetEntry_sat (hset : Setting b d₀ l) (h : Spares b d₀ l slot s.disk)
    (hlt : c < 65536) (htable : c < 256 * b.fatSize) (hc : ¬ Taken b d₀ l c)
    (hvalue : value < 65536) :
    (fatSetEntry faults b c value s).Sat (losses b d₀ l slot) fun _ s' =>
      Spares b d₀ l slot s'.disk ∧ fatAt b s'.disk c = value ∧
        (∀ k < 256 * b.fatSize, k ≠ c → fatAt b s'.disk k = fatAt b s.disk k ∨
          fatAt b s'.disk k = 0) ∧
        ∀ k, 65536 ≤ k → k < 256 * b.fatSize → fatAt b s'.disk k = fatAt b s.disk k := by
  have hlba := b.fatLba_lt
  have hsize := b.fatSize_lt
  have hsplit := fatAddr_split b c
  have hmod : 2 * c % 512 + 2 ≤ 512 := by omega
  rw [fatSetEntry]
  refine Traced.Sat.bind (setEntryIn_sat h (by omega) hmod fun i hi => ?_)
    fun _ s₁ h₁ => ?_
  · rw [hsplit]
    exact not_foreign_entry hset hc htable hi
  obtain ⟨hsp, hself, hout, hrest⟩ := h₁
  rw [hsplit] at hself hrest
  have hkept : ∀ k < 256 * b.fatSize, k ≠ c →
      fatAt b s₁.disk k = fatAt b s.disk k ∨ fatAt b s₁.disk k = 0 := by
    intro k hk hne
    have hksplit := fatAddr_split b k
    have hapart : ∀ a, fatAddr b k ≤ a → a < fatAddr b k + 2 →
        a < fatAddr b c ∨ fatAddr b c + 2 ≤ a := fun a ha ha' => by
      unfold fatAddr at ha ha' ⊢
      omega
    by_cases hsector : 2 * k / 512 = 2 * c / 512
    · rcases hrest with hsame | hzero
      · exact Or.inl (load16_congr fun a ha ha' => hsame a (hapart a ha ha'))
      · right
        have hbyte : ∀ a, fatAddr b k ≤ a → a < fatAddr b k + 2 → s₁.disk a = 0 :=
          fun a ha ha' => hzero a (by omega) (by omega) (hapart a ha ha')
        rw [fatAt, load16, hbyte _ le_rfl (by omega), hbyte _ (by omega) (by omega)]
        rfl
    · refine Or.inl (load16_congr fun a ha ha' => hout a ?_)
      omega
  have hhigh : ∀ k, 65536 ≤ k → k < 256 * b.fatSize → fatAt b s₁.disk k = fatAt b s.disk k := by
    intro k hk _
    refine load16_congr fun a ha ha' => hout a ?_
    unfold fatAddr at ha ha'
    omega
  rw [Nat.mod_eq_of_lt hvalue] at hself
  by_cases htwo : 1 < b.fatCount.toNat
  swap
  · rw [if_neg htwo]
    exact Traced.Sat.ret ⟨hsp, hself, hkept, hhigh⟩
  · rw [if_pos htwo]
    have haddr : 512 * (b.fatLba + b.fatSize + 2 * c / 512) + 2 * c % 512 =
        fatAddr b c + 512 * b.fatSize := by
      unfold fatAddr
      omega
    refine Traced.Sat.mono (setEntryIn_sat hsp (by omega) hmod fun i hi => ?_) ?_
    · rw [haddr]
      exact not_foreign_copy hset htwo hc htable hi
    · rintro _ s₂ ⟨hsp₂, -, hout₂, -⟩
      -- the second copy lies behind the first one
      have hfirst : ∀ k < 256 * b.fatSize, fatAt b s₂.disk k = fatAt b s₁.disk k := by
        intro k hk
        refine load16_congr fun a ha ha' => hout₂ a ?_
        unfold fatAddr at ha ha'
        omega
      refine ⟨hsp₂, (hfirst c htable).trans hself, fun k hk hne => ?_, fun k hk hk' => ?_⟩
      · rw [hfirst k hk]
        exact hkept k hk hne
      · rw [hfirst k hk']
        exact hhigh k hk hk'

/-- The entry of a cluster of the call, or of none. -/
theorem fatSetEntry_good (hset : Setting b d₀ l) (h : Good b d₀ l slot F s.disk)
    (hlt : c < 65536) (htable : c < 256 * b.fatSize) (hc : ¬ Taken b d₀ l c)
    (hvalue : value < 65536) (hnext : c ∈ F → isCluster value = true → value ∈ F) :
    (fatSetEntry faults b c value s).Sat (losses b d₀ l slot) fun _ s' =>
      Good b d₀ l slot F s'.disk ∧ fatAt b s'.disk c = value := by
  refine Traced.Sat.mono (fatSetEntry_sat hset h.spares hlt htable hc hvalue) ?_
  rintro _ s' ⟨hsp, hself, hkept, hhigh⟩
  refine ⟨⟨hsp, fun k hk hk' => (hhigh k hk hk').trans (h.high k hk hk'), h.mine,
    fun k hk hcluster => ?_⟩, hself⟩
  by_cases hkc : k = c
  · subst hkc
    rw [hself] at hcluster ⊢
    exact hnext hk hcluster
  · rcases hkept k (h.mine k hk).2.2.1 hkc with hsame | hzero
    · rw [hsame] at hcluster ⊢
      exact h.next k hk hcluster
    · rw [hzero] at hcluster
      cases hcluster

/-- A cluster joins those of the call. -/
theorem Good.insert (h : Good b d₀ l slot F d) (htwo : 2 ≤ c) (hlt : c < 65536)
    (htable : c < 256 * b.fatSize) (hc : ¬ Taken b d₀ l c)
    (hnext : isCluster (fatAt b d c) = false) : Good b d₀ l slot (insert c F) d where
  spares := h.spares
  high := h.high
  mine k hk := by
    rcases Set.mem_insert_iff.1 hk with rfl | hk
    · exact ⟨htwo, hlt, htable, hc⟩
    · exact h.mine k hk
  next k hk hcluster := by
    rcases Set.mem_insert_iff.1 hk with rfl | hk
    · rw [hnext] at hcluster
      cases hcluster
    · exact Set.mem_insert_of_mem c (h.next k hk hcluster)

theorem searchSector_eq_some {buf : Bytes} {i c : ℕ} :
    searchSector buf i = some c → ∃ j < 256, c = 256 * i + j ∧ 2 ≤ c ∧ load16 buf (2 * j) = 0 ∧
      ∀ j' < j, 2 ≤ 256 * i + j' → load16 buf (2 * j') ≠ 0 := by
  rw [searchSector, findSome?_range_eq_some]
  rintro ⟨j, hj, hfound, hbefore⟩
  dsimp only at hfound hbefore
  split_ifs at hfound with htwo hzero
  refine ⟨j, hj, (Option.some.inj hfound).symm, ?_, hzero, fun j' hj' htwo' hzero' => ?_⟩
  · rw [← Option.some.inj hfound]
    omega
  · have := hbefore j' hj'
    rw [if_neg (by omega), if_pos hzero'] at this
    cases this

/-- In a buffer of zeros the first entry that counts is found. -/
theorem searchSector_zero {i c : ℕ} (h : searchSector (fun _ => 0) i = some c) :
    c = 2 ∨ c = 256 * i := by
  obtain ⟨j, -, rfl, htwo, -, hfirst⟩ := searchSector_eq_some h
  by_contra hno
  have hi : 0 < i ∨ i = 0 := by omega
  rcases hi with hi | rfl
  · exact hfirst 0 (by omega) (by omega) rfl
  · exact hfirst 2 (by omega) (by omega) rfl

/-- The search ends with a cluster that is not taken: its entry was read, or it was not and
that is in the log. -/
theorem findFreeCluster_sat (hset : Setting b d₀ l) (h : Good b d₀ l slot F s.disk) {i : ℕ}
    (hn : i + n ≤ b.fatSize) :
    (findFreeCluster faults b n i s).Sat (losses b d₀ l slot) fun found s' =>
      s'.disk = s.disk ∧ ∀ c, found = some c → c < 256 * b.fatSize ∧ c % 65536 ≠ 1 ∧
        ¬ Taken b d₀ l (c % 65536) := by
  induction n generalizing i s with
  | zero => exact Traced.Sat.ret ⟨rfl, fun c hc => by cases hc⟩
  | succ n ih =>
      rw [findFreeCluster, ataReadSector_bind]
      dsimp only
      cases hfound : searchSector (if faults s.reads then fun _ => 0
          else readSector s.disk (b.fatLba + i)) i with
      | none => exact ih (by exact h) (by omega)
      | some c =>
          dsimp only
          by_cases hfailed : faults s.reads = true
          · rw [if_pos hfailed] at hfound ⊢
            have hor := searchSector_zero hfound
            refine Traced.Sat.note fun hgiven => Or.inl ⟨fun e he => ?_, rfl, fun c' hc' => ?_⟩
            · obtain rfl := List.mem_singleton.1 he
              exact ⟨trivial, trivial⟩
            · obtain rfl := Option.some.inj hc'
              exact ⟨by omega, by omega, hgiven _ (List.mem_singleton.2 rfl)⟩
          · rw [if_neg hfailed] at hfound ⊢
            refine Traced.Sat.note fun _ => Or.inl ⟨fun e he => ?_, rfl, fun c' hc' => ?_⟩
            · cases he
            · obtain rfl := Option.some.inj hc'
              have hlba := b.fatLba_lt
              have hsize := b.fatSize_lt
              obtain ⟨j, hj, heq, htwo, hzero, -⟩ := searchSector_eq_some hfound
              have hin : 512 * (b.fatLba + i) + 2 * j = fatAddr b c := by
                unfold fatAddr
                omega
              rw [load16_readSector s.disk (show b.fatLba + i < 2 ^ 28 by omega), hin] at hzero
              have htable : c < 256 * b.fatSize := by omega
              -- an entry past the 16-bit numbers was never written
              have hlt : c < 65536 := by
                by_contra hge
                have huse := hset.free c htable ((h.high c (by omega) htable).symm.trans hzero)
                have := huse.lt hset.layout.geometry
                omega
              rw [Nat.mod_eq_of_lt hlt]
              exact ⟨htable, by omega, fun htaken =>
                htaken.2.1 ((h.spares.entry c htaken).symm.trans hzero)⟩

/-- A new cluster is one that was not taken. -/
theorem fatAllocCluster_sat (hset : Setting b d₀ l) (h : Good b d₀ l slot F s.disk) :
    (fatAllocCluster faults b s).Sat (losses b d₀ l slot) fun c s' =>
      (c = 0 ∧ Good b d₀ l slot F s'.disk) ∨ 2 ≤ c ∧ Good b d₀ l slot (insert c F) s'.disk := by
  rw [fatAllocCluster]
  refine Traced.Sat.bind (findFreeCluster_sat hset h (Nat.zero_add _).le) fun found s₁ h₁ => ?_
  obtain ⟨hdisk, hfound⟩ := h₁
  rw [← hdisk] at h
  cases found with
  | none => exact Traced.Sat.ret (Or.inl ⟨rfl, h⟩)
  | some k =>
      dsimp only
      obtain ⟨hk, hone, hfree⟩ := hfound k rfl
      have hlt : k % 65536 < 65536 := Nat.mod_lt k (by simp)
      have htable : k % 65536 < 256 * b.fatSize := (Nat.mod_le k 65536).trans_lt hk
      have hnone : isCluster 0xFFFF = false := rfl
      refine Traced.Sat.bind (fatSetEntry_good hset h hlt htable hfree (by simp)
        fun _ hmark => absurd hmark (by simp [hnone])) fun _ s₂ h₂ => ?_
      refine Traced.Sat.ret ?_
      rcases Nat.eq_zero_or_pos (k % 65536) with hzero | hpos
      · exact Or.inl ⟨hzero, h₂.1⟩
      · have htwo : 2 ≤ k % 65536 := by omega
        exact Or.inr ⟨htwo, h₂.1.insert htwo hlt htable hfree (by rw [h₂.2, hnone])⟩

/-! ## Clusters and files -/

theorem readSectors_sat (K : Contract Event) (buf : Bytes) :
    (readSectors faults lba n buf s).Sat K fun _ s' => s'.disk = s.disk := by
  induction n with
  | zero => exact Traced.Sat.ret rfl
  | succ n ih =>
      refine Traced.Sat.bind ih fun buf s₁ h₁ => ?_
      rw [ataReadSector_bind]
      exact Traced.Sat.ret h₁

/-- A sector behind the table is written. -/
theorem Good.writeSector (h : Good b d₀ l slot F d) (hb : Layout b) (hroot : b.rootDirLba ≤ lba)
    (hlba : lba < 2 ^ 28) (hsp : Spares b d₀ l slot (writeSector d lba buf)) :
    Good b d₀ l slot F (writeSector d lba buf) := by
  obtain ⟨hone, -⟩ := copies_le hb
  have hkept : ∀ k < 256 * b.fatSize, fatAt b (Fat16.writeSector d lba buf) k = fatAt b d k := by
    intro k hk
    refine load16_congr fun a ha ha' => writeSector_of_apart d buf hlba (Or.inl ?_)
    unfold fatAddr at ha'
    omega
  refine ⟨hsp, fun k hk hk' => (hkept k hk').trans (h.high k hk hk'), h.mine, fun c hc => ?_⟩
  rw [hkept c (h.mine c hc).2.2.1]
  exact h.next c hc

theorem ataWriteSector_good (hset : Setting b d₀ l) (h : Good b d₀ l slot F s.disk) (hc : c ∈ F)
    (hn : n < b.spc) :
    (ataWriteSector (b.clusterLba c + n) buf s).Sat (losses b d₀ l slot) fun _ s' =>
      Good b d₀ l slot F s'.disk := by
  obtain ⟨htwo, hlt, -, hfree⟩ := h.mine c hc
  have hlast := b.clusterLba_add_spc_lt htwo hlt
  have hdata := b.clusterLba_of_two_le htwo hlt
  have hroot : b.rootDirLba ≤ b.dataLba := Nat.le_add_right _ _
  refine Traced.Sat.mono (ataWriteSector_sat h.spares (by omega) fun y hy => ?_) ?_
  · refine not_foreign_cluster hset htwo hlt hfree ?_
    rw [InCluster, clusterAddr, Bpb.clusterBytes]
    omega
  · rintro _ s' ⟨hsp, heq⟩
    rw [heq] at hsp ⊢
    exact h.writeSector hset.layout (by omega) (by omega) hsp

theorem writeSectors_sat (hset : Setting b d₀ l) (h : Good b d₀ l slot F s.disk) (hc : c ∈ F)
    (hn : n ≤ b.spc) :
    (writeSectors (b.clusterLba c) buf n s).Sat (losses b d₀ l slot) fun _ s' =>
      Good b d₀ l slot F s'.disk := by
  induction n with
  | zero => exact Traced.Sat.ret h
  | succ n ih =>
      exact Traced.Sat.bind (ih (Nat.le_of_succ_le hn)) fun _ s₁ h₁ =>
        ataWriteSector_good hset h₁ hc hn

/-- The walk stays in the clusters of the call, which it may add to. -/
theorem extendWalk_sat (hset : Setting b d₀ l) (h : Good b d₀ l slot F s.disk) (hc : c ∈ F) :
    (extendWalk faults b n c s).Sat (losses b d₀ l slot) fun walk s' =>
      ∃ F', F ⊆ F' ∧ walk.2 ∈ F' ∧ Good b d₀ l slot F' s'.disk := by
  induction n generalizing c F s with
  | zero => exact Traced.Sat.ret ⟨F, subset_rfl, hc, h⟩
  | succ n ih =>
      rw [extendWalk]
      obtain ⟨htwo, hlt, htable, hfree⟩ := h.mine c hc
      refine Traced.Sat.bind (fatEntry_sat _ hlt) fun next s₁ h₁ => ?_
      obtain ⟨hdisk, hnext⟩ := h₁
      rw [← hdisk] at h hnext
      by_cases hcluster : isCluster next = true
      · rw [if_pos hcluster]
        refine ih h ?_
        rcases hnext with rfl | rfl
        · cases hcluster
        · exact h.next c hc hcluster
      rw [if_neg hcluster]
      refine Traced.Sat.bind (fatAllocCluster_sat hset h) fun nc s₂ h₂ => ?_
      split_ifs with hfull
      · rcases h₂ with ⟨-, hgood⟩ | ⟨htwo', -⟩
        · exact Traced.Sat.ret ⟨F, subset_rfl, hc, hgood⟩
        · omega
      rcases h₂ with ⟨hzero, -⟩ | ⟨-, hgood⟩
      · exact absurd hzero hfull
      -- the new cluster is linked behind the last one
      have hnew : nc ∈ insert nc F := Set.mem_insert nc F
      refine Traced.Sat.bind (fatSetEntry_good hset hgood hlt htable hfree (hgood.mine nc hnew).2.1
        fun _ _ => hnew) fun _ s₃ h₃ => ?_
      refine Traced.Sat.mono (ih h₃.1 hnew) ?_
      rintro walk s' ⟨F', hsub, hin, hgood'⟩
      exact ⟨F', (Set.subset_insert nc F).trans hsub, hin, hgood'⟩

theorem writeLoop_sat (hset : Setting b d₀ l) (h : Good b d₀ l slot F s.disk) {inode : ℕ}
    (hin : inode % 65536 ∈ F) {offset size fuel done : ℕ} {cbuf : Bytes} :
    (writeLoop faults b inode offset size buf fuel done cbuf s).Sat (losses b d₀ l slot)
      fun _ s' => ∃ F', Good b d₀ l slot F' s'.disk := by
  induction fuel generalizing done cbuf F s with
  | zero => exact Traced.Sat.lift fun _ _ => ⟨F, h⟩
  | succ fuel ih =>
      rw [writeLoop]
      split_ifs
      swap
      · exact Traced.Sat.ret ⟨F, h⟩
      refine Traced.Sat.bind (extendWalk_sat hset h hin) fun walk s₁ h₁ => ?_
      obtain ⟨F', hsub, hwalk, hgood⟩ := h₁
      split_ifs
      swap
      · exact Traced.Sat.ret ⟨F', hgood⟩
      refine Traced.Sat.bind (readSectors_sat _ cbuf) fun cbuf s₂ h₂ => ?_
      rw [← h₂] at hgood
      refine Traced.Sat.bind (writeSectors_sat hset hgood hwalk le_rfl) fun _ s₃ h₃ => ?_
      exact ih h₃ (hsub hin)

end Faulty

end Fat16

end Yotos
