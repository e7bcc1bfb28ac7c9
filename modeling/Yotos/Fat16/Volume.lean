import Yotos.Library.Chain
import Yotos.Fat16.File

/-!
# Well-formed volumes

The abstract view of a volume. A directory is the list of its slots, found through
`dirSectorLba`, and an entry is identified by the byte address of its slot. The live
entries are those that the driver shows: not free, not past the first zero entry, no
long-name piece and no volume label. `IsDir` are the directories reached from the
root, `Owner` the live entries that own a cluster chain: all but the dot entries.
-/

namespace Yotos

namespace Fat16

open Bytes Library

/-- The volume has its regions one after the other, and `top` bounds the clusters
that its chains may use: entries of the first copy, below the end marks. -/
structure Geometry (b : Bpb) (top : ℕ) : Prop where
  spc_pos : 1 ≤ b.spc
  fatCount_pos : 1 ≤ b.fatCount.toNat
  fatSize_pos : 1 ≤ b.fatSize
  top_le_mark : top ≤ 0xFFF8
  top_le_table : top ≤ 256 * b.fatSize

/-- The cluster numbers below `top`. -/
def InUse (top c : ℕ) : Prop := 2 ≤ c ∧ c < top

def EndMark (c : ℕ) : Prop := 0xFFF8 ≤ c

/-- The walk from cluster `c` visits `l` and ends with an end mark. -/
abbrev ClusterChain (b : Bpb) (top : ℕ) (d : Disk) (c : ℕ) (l : List ℕ) : Prop :=
  Chain (fatAt b d) (InUse top) EndMark c l

/-- `l` is the chain of an entry with this first cluster: empty when that is 0 or 1. -/
def FileChain (b : Bpb) (top : ℕ) (d : Disk) (first : ℕ) (l : List ℕ) : Prop :=
  if first < 2 then l = [] else l ≠ [] ∧ ClusterChain b top d first l

/-- The byte address of a cluster. -/
def clusterAddr (b : Bpb) (c : ℕ) : ℕ := 512 * b.clusterLba c

/-- The bytes of cluster `c`. -/
def InCluster (b : Bpb) (c a : ℕ) : Prop :=
  clusterAddr b c ≤ a ∧ a < clusterAddr b c + b.clusterBytes

/-! The slots of directory `dir`. -/

def HasSlot (b : Bpb) (d : Disk) (dir k : ℕ) : Prop := dirSectorLba b d dir (k / 16) ≠ 0

def slotAddr (b : Bpb) (d : Disk) (dir k : ℕ) : ℕ :=
  512 * dirSectorLba b d dir (k / 16) + 32 * (k % 16)

/-- The entry in the slot at byte address `a`. -/
def entryAt (d : Disk) (a : ℕ) : Bytes := fun x => d (a + x)

/-- An entry that `skip_entry` and the volume label test let through. -/
def Visible (e : Bytes) : Prop := skipEntry e = 0 ∧ isVolumeId e = false

/-- The name and extension fields. -/
def rawName (e : Bytes) : List UInt8 := (List.range 11).map e

/-- `.` and `..` of a directory. -/
def isDot (e : Bytes) : Bool :=
  isDirectory e && (rawName e == 0x2E :: List.replicate 10 0x20 ||
    rawName e == 0x2E :: 0x2E :: List.replicate 9 0x20)

/-- A slot that the driver reaches and shows. -/
structure LiveSlot (b : Bpb) (d : Disk) (dir k : ℕ) : Prop where
  has : HasSlot b d dir k
  before : ∀ j < k, d (slotAddr b d dir j) ≠ 0
  visible : Visible (entryAt d (slotAddr b d dir k))

/-- The directories of the volume, by their inode. -/
inductive IsDir (b : Bpb) (d : Disk) : ℕ → Prop
  | root : IsDir b d 0
  | child {dir k : ℕ} (hdir : IsDir b d dir) (hlive : LiveSlot b d dir k)
      (hisDir : isDirectory (entryAt d (slotAddr b d dir k)) = true)
      (hdot : isDot (entryAt d (slotAddr b d dir k)) = false) :
      IsDir b d (firstCluster (entryAt d (slotAddr b d dir k)))

/-- The address of a live entry. -/
def LiveEntry (b : Bpb) (d : Disk) (a : ℕ) : Prop :=
  ∃ dir k, IsDir b d dir ∧ LiveSlot b d dir k ∧ slotAddr b d dir k = a

/-- A live entry other than `.` and `..`. -/
def Owner (b : Bpb) (d : Disk) (a : ℕ) : Prop :=
  LiveEntry b d a ∧ isDot (entryAt d a) = false

/-- The clusters of the volume's data area that a FAT16 entry can name. -/
def DataCluster (b : Bpb) (c : ℕ) : Prop := 2 ≤ c ∧ c < 2 + b.dataClusters ∧ c < 0xFFF8

/-- A well-formed volume, its chains within the clusters below `top`. -/
structure WellFormed (b : Bpb) (top : ℕ) (d : Disk) : Prop where
  free : ∀ k < 256 * b.fatSize, ¬ DataCluster b k → fatAt b d k ≠ 0
  chain : ∀ a, Owner b d a → 2 ≤ firstCluster (entryAt d a) →
    ∃ l, l ≠ [] ∧ ClusterChain b top d (firstCluster (entryAt d a)) l ∧ l.Nodup
  disjoint : ∀ a a' l l', Owner b d a → Owner b d a' → a ≠ a' →
    2 ≤ firstCluster (entryAt d a) → 2 ≤ firstCluster (entryAt d a') →
    ClusterChain b top d (firstCluster (entryAt d a)) l →
    ClusterChain b top d (firstCluster (entryAt d a')) l' → l.Disjoint l'

/-- Every slot after the first zero one is zero. -/
def ZeroTail (b : Bpb) (d : Disk) : Prop :=
  ∀ dir j k, IsDir b d dir → j < k → HasSlot b d dir k → d (slotAddr b d dir j) = 0 →
    d (slotAddr b d dir k) = 0

/-- Every file's chain is long enough for its size. -/
def LongEnough (b : Bpb) (top : ℕ) (d : Disk) : Prop :=
  ∀ a l, Owner b d a → isDirectory (entryAt d a) = false →
    FileChain b top d (firstCluster (entryAt d a)) l →
    fileSize (entryAt d a) ≤ l.length * b.clusterBytes

/-- The invariant behind `WellFormed`. Every entry has an effective first cluster,
`first`: the one on the disk, or, before the first one of a file is on the disk, the one
that an open node holds. -/
structure Sound (b : Bpb) (top : ℕ) (d : Disk) (first : ℕ → ℕ) : Prop where
  free : ∀ k < 256 * b.fatSize, fatAt b d k = 0 → InUse top k
  chain : ∀ a, Owner b d a → ∃ l, FileChain b top d (first a) l
  disjoint : ∀ a a' l l', Owner b d a → Owner b d a' → a ≠ a' →
    FileChain b top d (first a) l → FileChain b top d (first a') l' → l.Disjoint l'
  onDisk : ∀ a, Owner b d a → 2 ≤ firstCluster (entryAt d a) →
    first a = firstCluster (entryAt d a)

variable {b : Bpb} {top : ℕ} {d d' : Disk} {first : ℕ → ℕ} {c c' a k dir : ℕ} {l l' : List ℕ}

theorem InUse.not_endMark (hb : Geometry b top) (h : InUse top c) : ¬ EndMark c := by
  have := hb.top_le_mark
  have := h.2
  unfold EndMark
  omega

theorem InUse.lt (hb : Geometry b top) (h : InUse top c) : c < 65536 := by
  have := hb.top_le_mark
  have := h.2
  omega

theorem InUse.lt_table (hb : Geometry b top) (h : InUse top c) : c < 256 * b.fatSize :=
  Nat.lt_of_lt_of_le h.2 hb.top_le_table

theorem isCluster_of_inUse (hb : Geometry b top) (h : InUse top c) : isCluster c = true := by
  have := hb.top_le_mark
  exact isCluster_iff.2 ⟨h.1, Nat.lt_of_lt_of_le h.2 this⟩

theorem isCluster_of_endMark (h : EndMark c) : isCluster c = false := by
  have hmark : 0xFFF8 ≤ c := h
  rw [Bool.eq_false_iff]
  intro hc
  have := (isCluster_iff.1 hc).2
  omega

/-! ## Chains -/

theorem fileChain_of_lt (h : c < 2) : FileChain b top d c l ↔ l = [] := by
  rw [FileChain, if_pos h]

theorem fileChain_of_two_le (h : 2 ≤ c) :
    FileChain b top d c l ↔ l ≠ [] ∧ ClusterChain b top d c l := by
  rw [FileChain, if_neg (by omega)]

theorem FileChain.clusterChain (h : FileChain b top d c l) (hc : 2 ≤ c) :
    ClusterChain b top d c l :=
  ((fileChain_of_two_le hc).1 h).2

/-- An entry has no clusters, or the walk from its first cluster visits them. -/
theorem FileChain.cases (h : FileChain b top d c l) :
    (c < 2 ∧ l = []) ∨ (2 ≤ c ∧ c ∈ l ∧ ClusterChain b top d c l) := by
  rcases Nat.lt_or_ge c 2 with hc | hc
  · exact Or.inl ⟨hc, (fileChain_of_lt hc).1 h⟩
  · obtain ⟨hne, hchain⟩ := (fileChain_of_two_le hc).1 h
    refine Or.inr ⟨hc, ?_, hchain⟩
    obtain ⟨x, xs, rfl⟩ := List.exists_cons_of_ne_nil hne
    exact List.mem_cons.2 (Or.inl hchain.1.symm)

theorem FileChain.inUse (h : FileChain b top d c l) {x : ℕ} (hx : x ∈ l) : InUse top x := by
  rcases h.cases with ⟨-, rfl⟩ | ⟨-, -, hchain⟩
  · cases hx
  · exact hchain.inside_of_mem hx

theorem FileChain.unique (hb : Geometry b top) (h : FileChain b top d c l)
    (h' : FileChain b top d c l') : l = l' := by
  rcases h.cases with ⟨hc, rfl⟩ | ⟨hc, -, hchain⟩
  · rw [(fileChain_of_lt hc).1 h']
  · exact hchain.unique (fun _ => InUse.not_endMark hb) (h'.clusterChain hc)

theorem FileChain.congr (h : FileChain b top d c l) (hfat : ∀ x ∈ l, fatAt b d' x = fatAt b d x) :
    FileChain b top d' c l := by
  rcases Nat.lt_or_ge c 2 with hc | hc
  · rwa [fileChain_of_lt hc] at h ⊢
  · rw [fileChain_of_two_le hc] at h ⊢
    exact ⟨h.1, Chain.congr h.2 hfat⟩

/-- No chain contains a free cluster. -/
theorem FileChain.fatAt_ne_zero (h : FileChain b top d c l) {x : ℕ} (hx : x ∈ l) :
    fatAt b d x ≠ 0 := by
  rcases h.cases with ⟨-, rfl⟩ | ⟨-, -, hchain⟩
  · cases hx
  · intro hzero
    rcases hchain.next_mem_or_stop hx with hmem | hmark
    · have := (hchain.inside_of_mem hmem).1
      omega
    · have : 0xFFF8 ≤ fatAt b d x := hmark
      omega

/-- A skip along a chain, as the two readers of `skipClusters` use it. -/
theorem skipClusters_of_chain (hb : Geometry b top) (h : ClusterChain b top d c l) (n : ℕ) :
    (skipClusters b d n c).filter isCluster = l[n]? := by
  induction n generalizing c l with
  | zero =>
      cases l with
      | nil => simp [skipClusters, isCluster_of_endMark h]
      | cons x xs =>
          obtain ⟨rfl, hin, -⟩ := h
          simp [skipClusters, isCluster_of_inUse hb hin]
  | succ n ih =>
      cases l with
      | nil => simp [skipClusters, isCluster_of_endMark h]
      | cons x xs =>
          obtain ⟨rfl, hin, hrest⟩ := h
          rw [skipClusters, if_pos (isCluster_of_inUse hb hin), fatEntry_eq (hin.lt hb), ih hrest]
          rfl

theorem skipClusters_eq_some (hb : Geometry b top) (h : ClusterChain b top d c l) {n x : ℕ}
    (hx : l[n]? = some x) : skipClusters b d n c = some x := by
  have := skipClusters_of_chain hb h n
  rw [hx, Option.filter_eq_some_iff] at this
  exact this.1

/-! ## Clusters -/

theorem clusterAddr_eq (b : Bpb) (h : 2 ≤ c) (hlt : c < 65536) :
    clusterAddr b c = 512 * b.dataLba + (c - 2) * b.clusterBytes := by
  rw [clusterAddr, b.clusterLba_of_two_le h hlt, Nat.mul_add, Bpb.clusterBytes,
    Nat.mul_left_comm]

/-- Distinct clusters have no byte in common. -/
theorem inCluster_unique (h : 2 ≤ c) (hlt : c < 65536) (h' : 2 ≤ c') (hlt' : c' < 65536)
    (ha : InCluster b c a) (ha' : InCluster b c' a) : c = c' := by
  have hone : ∀ {x y : ℕ}, 2 ≤ x → x < 65536 → 2 ≤ y → y < 65536 → x < y →
      InCluster b x a → ¬ InCluster b y a := by
    intro x y hx hx' hy hy' hxy hax hay
    have hmul := Nat.mul_le_mul_right b.clusterBytes (show x - 2 + 1 ≤ y - 2 by omega)
    rw [Nat.add_mul, Nat.one_mul] at hmul
    have hx₁ := hax.2
    have hy₁ := hay.1
    rw [clusterAddr_eq b hx hx'] at hx₁
    rw [clusterAddr_eq b hy hy'] at hy₁
    omega
  rcases Nat.lt_trichotomy c c' with hlt₁ | heq | hgt
  · exact absurd ha' (hone h hlt h' hlt' hlt₁ ha)
  · exact heq
  · exact absurd ha (hone h' hlt' h hlt hgt ha')

theorem dataAddr_le_of_inCluster (h : 2 ≤ c) (hlt : c < 65536) (ha : InCluster b c a) :
    512 * b.dataLba ≤ a := by
  have h₁ := ha.1
  rw [clusterAddr_eq b h hlt] at h₁
  omega

theorem rootAddr_le_dataAddr (b : Bpb) : 512 * b.rootDirLba ≤ 512 * b.dataLba := by
  unfold Bpb.dataLba
  omega

/-! ## Slots -/

theorem dirSectorLba_root (b : Bpb) (d : Disk) (n : ℕ) :
    dirSectorLba b d 0 n = if b.rootDirSectors ≤ n then 0 else b.rootDirLba + n := by
  rw [dirSectorLba, if_pos rfl]

theorem dirSectorLba_of_chain (hb : Geometry b top) (hdir : 2 ≤ dir) (hlt : dir < 65536)
    (h : ClusterChain b top d dir l) (n : ℕ) :
    dirSectorLba b d dir n =
      (l[n / b.spc]?.map fun c => b.clusterLba c + n % b.spc).getD 0 := by
  have hskip := skipClusters_of_chain hb h (n / b.spc)
  rw [dirSectorLba, if_neg (by omega), Nat.mod_eq_of_lt hlt, ← hskip]
  cases skipClusters b d (n / b.spc) dir with
  | none => rfl
  | some c => by_cases hc : isCluster c <;> simp [Option.filter, hc]

/-- A directory whose inode is 0 or 1 besides the root has no sectors. -/
theorem dirSectorLba_one (b : Bpb) (d : Disk) (n : ℕ) : dirSectorLba b d 1 n = 0 := by
  have hone : isCluster 1 = false := rfl
  rw [dirSectorLba, if_neg (by omega)]
  cases n / b.spc with
  | zero => simp [skipClusters, hone]
  | succ m => simp [skipClusters, hone]

/-- The place of a directory sector: the root region, or a cluster of the chain. -/
theorem dirSectorLba_cases (hb : Geometry b top) (h : FileChain b top d dir l) {n : ℕ}
    (hn : dirSectorLba b d dir n ≠ 0) :
    (dir = 0 ∧ dirSectorLba b d dir n = b.rootDirLba + n ∧ n < b.rootDirSectors) ∨
      ∃ c, l[n / b.spc]? = some c ∧ 2 ≤ dir ∧
        dirSectorLba b d dir n = b.clusterLba c + n % b.spc := by
  rcases h.cases with ⟨hdir, -⟩ | ⟨hdir, hmem, hchain⟩
  · rcases Nat.lt_or_ge dir 1 with hzero | hone
    · obtain rfl : dir = 0 := by omega
      rw [dirSectorLba_root] at hn ⊢
      by_cases hlt : b.rootDirSectors ≤ n
      · exact absurd (if_pos hlt) hn
      · exact Or.inl ⟨rfl, if_neg hlt, by omega⟩
    · obtain rfl : dir = 1 := by omega
      exact absurd (dirSectorLba_one b d n) hn
  · have hlt := (hchain.inside_of_mem hmem).lt hb
    rw [dirSectorLba_of_chain hb hdir hlt hchain] at hn ⊢
    cases hc : l[n / b.spc]? with
    | none => exact absurd (by rw [hc]; rfl) hn
    | some c => exact Or.inr ⟨c, rfl, hdir, rfl⟩

end Fat16

end Yotos
