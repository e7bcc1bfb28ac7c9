import Yotos.Fat16.Lookup

/-!
# One call of `fat16_vfs_create`

A call that gets as far as the parent's slot leaves the volume `Created`: the first
free slot of the directory holds a new entry, and for a directory a free cluster
became its chain, empty but for the dot entries. All other calls leave every
table entry and every directory as they were.
-/

namespace Yotos

namespace Fat16

open Bytes Kheap Library

variable {b : Bpb} {top : ℕ} {d d' : Disk} {first : ℕ → ℕ} {a c dir k j fuel : ℕ} {l : List ℕ}
  {e : Bytes} {name : List UInt8}

/-- The slot at address `a`. -/
def SlotBytes (a x : ℕ) : Prop := a ≤ x ∧ x < a + 32

/-- Slot `j` of a new directory: the entry `.` or `..`, or zero. -/
def FreshSlot (b : Bpb) (d : Disk) (dir j : ℕ) : Prop :=
  (j < 2 → d (slotAddr b d dir j) ≠ 0 ∧ isDot (entryAt d (slotAddr b d dir j)) = true ∧
      format83 (entryAt d (slotAddr b d dir j)) = List.replicate (j + 1) 0x2E) ∧
    (2 ≤ j → d (slotAddr b d dir j) = 0)

/-- The first free slot, `k`, of directory `dir` was filled with the entry `e`, whose
chain is `l`. -/
structure Created (b : Bpb) (top : ℕ) (d : Disk) (dir k : ℕ) (e : Bytes) (l : List ℕ)
    (d' : Disk) : Prop where
  slot : FirstFree b d dir k
  fresh : ∀ c ∈ l, InUse top c ∧ fatAt b d c = 0
  chain : FileChain b top d' (firstCluster e) l
  frame : Frame b d d' (· ∈ l) (SlotBytes (slotAddr b d dir k))
  entry : ∀ x < 32, entryAt d' (slotAddr b d dir k) x = e x
  named : e 0 ≠ 0
  notDot : isDot e = false
  empty : isDirectory e = true → ∀ j, HasSlot b d' (firstCluster e) j →
    FreshSlot b d' (firstCluster e) j

/-- No table entry and no directory changed, at most some clusters that are free. -/
structure Unharmed (b : Bpb) (top : ℕ) (d d' : Disk) : Prop where
  table : ∀ k < 256 * b.fatSize, fatAt b d' k = fatAt b d k
  frame : Frame b d d' (fun c => InUse top c ∧ fatAt b d c = 0) fun _ => False

/-! ## The directory cluster -/

theorem initDirCluster_of_not_mem (hc : 2 ≤ c) (hlt : c < 65536) (hspc : 1 ≤ b.spc) (parent : ℕ)
    (ha : ¬ InCluster b c a) : initDirCluster b d c parent a = d a := by
  have hlba := b.clusterLba_add_spc_lt hc hlt
  have hfirst : a < 512 * b.clusterLba c ∨ 512 * b.clusterLba c + 512 ≤ a := by
    rw [InCluster, clusterAddr, Bpb.clusterBytes] at ha
    omega
  rw [initDirCluster, writeSector_of_apart _ _ (by omega) hfirst]
  exact writeCluster_of_not_mem hc hlt (fun _ => 0) ha

theorem initDirCluster_of_lt (hc : 2 ≤ c) (hlt : c < 65536) (hspc : 1 ≤ b.spc) (parent : ℕ)
    {x : ℕ} (hx : x < b.clusterBytes) :
    initDirCluster b d c parent (clusterAddr b c + x) =
      if x < 512 then dotSector c parent x else 0 := by
  have hlba := b.clusterLba_add_spc_lt hc hlt
  rw [initDirCluster]
  split_ifs with hfirst
  · exact writeSector_of_mem _ _ (by omega) hfirst
  · rw [clusterAddr, writeSector_of_apart _ _ (by omega) (by omega)]
    exact writeCluster_of_mem hc hlt (fun _ => 0) hx

theorem frame_initDirCluster (hb : Geometry b top) (hc : InUse top c) (parent : ℕ) :
    Frame b d (initDirCluster b d c parent) (· = c) fun _ => False where
  fat k hk _ := by
    refine fatAt_congr hb hk fun x hx => ?_
    refine initDirCluster_of_not_mem hc.1 (hc.lt hb) hb.spc_pos parent fun hin => ?_
    have := dataAddr_le_of_inCluster hc.1 (hc.lt hb) hin
    have := rootAddr_le_dataAddr b
    omega
  bytes x _ hx _ := initDirCluster_of_not_mem hc.1 (hc.lt hb) hb.spc_pos parent (hx c rfl)

theorem newEntry_of_lt (name83 ext83 : Bytes) (first size : ℕ) (attr : UInt8) {x : ℕ}
    (hx : x < 26) : newEntry name83 ext83 first size attr x =
      if x < 8 then name83 x else if x < 11 then ext83 (x - 8) else if x = 11 then attr else 0 := by
  rw [newEntry, store32_of_apart _ _ (by omega), store16_of_apart _ _ (by omega)]

theorem firstCluster_newEntry (name83 ext83 : Bytes) {first : ℕ} (size : ℕ) (attr : UInt8)
    (h : first < 65536) : firstCluster (newEntry name83 ext83 first size attr) = first := by
  have hload : firstCluster (newEntry name83 ext83 first size attr) =
      load16 (store16 (fun x => if x < 8 then name83 x else if x < 11 then ext83 (x - 8)
        else if x = 11 then attr else 0) 26 first) 26 :=
    load16_congr fun x _ hx => store32_of_apart _ _ (by omega)
  rw [hload, load16_store16, Nat.mod_eq_of_lt h]

theorem fileSize_newEntry (name83 ext83 : Bytes) (first : ℕ) {size : ℕ} (attr : UInt8)
    (h : size < 2 ^ 32) : fileSize (newEntry name83 ext83 first size attr) = size := by
  rw [fileSize, newEntry, load32_store32_of_lt _ _ h]

theorem attributes_newEntry (name83 ext83 : Bytes) (first size : ℕ) (attr : UInt8) :
    attributes (newEntry name83 ext83 first size attr) = attr := by
  rw [attributes, newEntry_of_lt _ _ _ _ _ (by omega)]
  rfl

/-- The first character of the entry is the name's. -/
theorem newEntry_zero (name83 ext83 : Bytes) (first size : ℕ) (attr : UInt8) :
    newEntry name83 ext83 first size attr 0 = name83 0 := by
  rw [newEntry_of_lt _ _ _ _ _ (by omega)]
  rfl

theorem rawName_newEntry (name83 ext83 : Bytes) (first size : ℕ) (attr : UInt8) :
    rawName (newEntry name83 ext83 first size attr) =
      (List.range 11).map fun x => if x < 8 then name83 x else ext83 (x - 8) := by
  refine List.map_congr_left fun x hx => ?_
  have hlt := List.mem_range.1 hx
  rw [newEntry_of_lt _ _ _ _ _ (by omega)]
  split_ifs
  · rfl
  · rfl

/-- The name of the entry is that of its name fields. -/
theorem format83_newEntry (name83 ext83 : Bytes) (first size : ℕ) (attr : UInt8) :
    format83 (newEntry name83 ext83 first size attr) =
      format83 fun x => if x < 8 then name83 x else ext83 (x - 8) := by
  have hbyte : ∀ x < 11, newEntry name83 ext83 first size attr x =
      if x < 8 then name83 x else ext83 (x - 8) := by
    intro x hx
    rw [newEntry_of_lt _ _ _ _ _ (by omega), if_pos hx]
  have hname : (List.range 8).map (newEntry name83 ext83 first size attr) =
      (List.range 8).map fun x => if x < 8 then name83 x else ext83 (x - 8) :=
    List.map_congr_left fun x hx => hbyte x (by
      have := List.mem_range.1 hx
      omega)
  have hext : ((List.range 3).map fun x => newEntry name83 ext83 first size attr (8 + x)) =
      (List.range 3).map fun x => if 8 + x < 8 then name83 (8 + x) else ext83 (8 + x - 8) :=
    List.map_congr_left fun x hx => hbyte (8 + x) (by
      have := List.mem_range.1 hx
      omega)
  unfold format83
  rw [hname, hext, hbyte 8 (by omega)]

theorem isDot_newEntry (name83 ext83 : Bytes) (first size : ℕ) (attr : UInt8) :
    isDot (newEntry name83 ext83 first size attr) =
      (decide (attr &&& 0x10 ≠ 0) &&
        (((List.range 11).map fun x => if x < 8 then name83 x else ext83 (x - 8)) ==
            0x2E :: List.replicate 10 0x20 ||
          ((List.range 11).map fun x => if x < 8 then name83 x else ext83 (x - 8)) ==
            0x2E :: 0x2E :: List.replicate 9 0x20)) := by
  rw [isDot, rawName_newEntry, isDirectory, attributes_newEntry]

theorem dotSector_dot {cluster parent x : ℕ} (hx : x < 32) : dotSector cluster parent x =
    newEntry (fun x => if x = 0 then 0x2E else 0x20) (fun _ => 0x20) cluster 0 0x10 x := by
  simp only [dotSector]
  rw [copy_of_apart _ _ _ (by omega), copy_of_mem _ _ (by omega)]
  refine congrArg _ ?_
  omega

theorem dotSector_dotdot {cluster parent x : ℕ} (hx : x < 32) :
    dotSector cluster parent (32 + x) =
      newEntry (fun x => if x < 2 then 0x2E else 0x20) (fun _ => 0x20) (parent % 65536) 0 0x10 x := by
  simp only [dotSector]
  rw [copy_of_mem _ _ (by omega)]
  refine congrArg _ ?_
  omega

theorem dotSector_rest {cluster parent x : ℕ} (hx : 64 ≤ x) : dotSector cluster parent x = 0 := by
  simp only [dotSector]
  rw [copy_of_apart _ _ _ (by omega), copy_of_apart _ _ _ (by omega)]

/-- The slots of a directory that consists of one cluster. -/
theorem slot_of_single (hb : Geometry b top) (hc : InUse top c)
    (hl : ClusterChain b top d c [c]) (hj : HasSlot b d c j) :
    slotAddr b d c j = clusterAddr b c + 32 * j ∧ 32 * j + 32 ≤ b.clusterBytes := by
  rw [HasSlot, dirSectorLba_of_chain hb hc.1 (hc.lt hb) hl] at hj
  rw [slotAddr, dirSectorLba_of_chain hb hc.1 (hc.lt hb) hl]
  have hpos := hb.spc_pos
  cases hdiv : j / 16 / b.spc with
  | succ i =>
      rw [hdiv] at hj
      simp at hj
  | zero =>
      have hlt : j / 16 < b.spc := by
        rcases Nat.div_eq_zero_iff.1 hdiv with hzero | hlt
        · omega
        · exact hlt
      rw [Nat.mod_eq_of_lt hlt, clusterAddr, Bpb.clusterBytes]
      simp only [List.getElem?_cons_zero, Option.map_some, Option.getD_some]
      omega

theorem hasSlot_of_single (hb : Geometry b top) (hc : InUse top c)
    (hl : ClusterChain b top d c [c]) (hj : j < 16) : HasSlot b d c j := by
  have hroot := hb.rootDirLba_pos
  have hdata : b.rootDirLba ≤ b.dataLba := Nat.le_add_right _ _
  rw [HasSlot, dirSectorLba_of_chain hb hc.1 (hc.lt hb) hl, Nat.div_eq_of_lt hj, Nat.zero_div,
    List.getElem?_cons_zero, Option.map_some, Option.getD_some,
    b.clusterLba_of_two_le hc.1 (hc.lt hb)]
  omega

/-- Entry `j` of a new directory: `.` for 0 and `..` for 1. -/
def dotEntry (j first : ℕ) : Bytes :=
  newEntry (fun x => if x ≤ j then 0x2E else 0x20) (fun _ => 0x20) first 0 0x10

theorem dotSector_slot {cluster parent x : ℕ} (hj : j < 2) (hx : x < 32) :
    dotSector cluster parent (32 * j + x) =
      dotEntry j (if j = 0 then cluster else parent % 65536) x := by
  rcases Nat.lt_or_ge j 1 with hdot | hdotdot
  · obtain rfl : j = 0 := by omega
    rw [Nat.mul_zero, Nat.zero_add, dotSector_dot hx, dotEntry, if_pos rfl]
    simp only [Nat.le_zero]
  · obtain rfl : j = 1 := by omega
    rw [Nat.mul_one, dotSector_dotdot hx, dotEntry, if_neg (by omega)]
    simp only [Nat.lt_succ_iff]

theorem dotEntry_zero (j first : ℕ) : dotEntry j first 0 = 0x2E := by
  rw [dotEntry, newEntry_zero, if_pos (Nat.zero_le j)]

theorem visible_dotEntry (j first : ℕ) : Visible (dotEntry j first) := by
  have hattr : attributes (dotEntry j first) = 0x10 := attributes_newEntry ..
  rw [Visible, skipEntry, isVolumeId, dotEntry_zero, hattr]
  decide

theorem isDirectory_dotEntry (j first : ℕ) : isDirectory (dotEntry j first) = true := by
  have hattr : attributes (dotEntry j first) = 0x10 := attributes_newEntry ..
  rw [isDirectory, hattr]
  decide

theorem isDot_dotEntry (hj : j < 2) (first : ℕ) : isDot (dotEntry j first) = true := by
  rw [dotEntry, isDot_newEntry]
  rcases Nat.lt_or_ge j 1 with hdot | hdotdot
  · obtain rfl : j = 0 := by omega
    decide
  · obtain rfl : j = 1 := by omega
    decide

theorem format83_dotEntry (hj : j < 2) (first : ℕ) :
    format83 (dotEntry j first) = List.replicate (j + 1) 0x2E := by
  rw [dotEntry, format83_newEntry]
  rcases Nat.lt_or_ge j 1 with hdot | hdotdot
  · obtain rfl : j = 0 := by omega
    decide
  · obtain rfl : j = 1 := by omega
    decide

section NewDirectory

variable (hb : Geometry b top) (hc : InUse top c) {parent : ℕ} {d₁ : Disk}
  (hd' : ∀ x, InCluster b c x → d' x = initDirCluster b d₁ c parent x)
  (hl : ClusterChain b top d' c [c])

include hb hc hd' hl

/-- A slot of the cluster that a new directory starts with. -/
theorem entryAt_initDirCluster (hj : HasSlot b d' c j) {x : ℕ} (hx : x < 32) :
    entryAt d' (slotAddr b d' c j) x =
      if 32 * j + x < 512 then dotSector c parent (32 * j + x) else 0 := by
  obtain ⟨haddr, hfits⟩ := slot_of_single hb hc hl hj
  rw [entryAt, haddr, Nat.add_assoc, hd' _ ⟨by omega, by omega⟩,
    initDirCluster_of_lt hc.1 (hc.lt hb) hb.spc_pos parent (by omega)]

theorem entryAt_dotEntry (hj : j < 2) {x : ℕ} (hx : x < 32) :
    entryAt d' (slotAddr b d' c j) x = dotEntry j (if j = 0 then c else parent % 65536) x := by
  rw [entryAt_initDirCluster hb hc hd' hl (hasSlot_of_single hb hc hl (by omega)) hx,
    if_pos (by omega), dotSector_slot hj hx]

/-- The slots of a new directory are the dot entries and zero. -/
theorem freshSlot_initDirCluster (hj : HasSlot b d' c j) : FreshSlot b d' c j := by
  refine ⟨fun hlt => ?_, fun htwo => ?_⟩
  · have hentry := fun x hx => entryAt_dotEntry hb hc hd' hl hlt (x := x) hx
    have hhead : ∀ x < 26, entryAt d' (slotAddr b d' c j) x =
        dotEntry j (if j = 0 then c else parent % 65536) x := fun x hx => hentry x (by omega)
    have hfirst := hentry 0 (by omega)
    rw [entryAt, Nat.add_zero, dotEntry_zero] at hfirst
    refine ⟨?_, ?_, ?_⟩
    · rw [hfirst]
      decide
    · rw [isDot_congr hhead, isDot_dotEntry hlt]
    · rw [format83_congr hhead, format83_dotEntry hlt]
  · have hzero := entryAt_initDirCluster hb hc hd' hl hj (show 0 < 32 by omega)
    rw [entryAt, Nat.add_zero] at hzero
    rw [hzero]
    split_ifs
    · exact dotSector_rest (by omega)
    · rfl

end NewDirectory

/-! ## What a creation keeps -/

namespace Created

variable {first : ℕ → ℕ}

theorem private_chain (h : Created b top d dir k e l d') : Private b top d first (· ∈ l) :=
  fun c hc => ⟨(h.fresh c hc).1, Or.inl (h.fresh c hc).2⟩

theorem sectors (hb : Geometry b top) (hs : Sound b top d first)
    (h : Created b top d dir k e l d') {q : ℕ} (hq : IsDir b d q) (n : ℕ) :
    dirSectorLba b d' q n = dirSectorLba b d q n :=
  h.frame.dirSectorLba_eq hb hs h.private_chain hq n

theorem slotAddr_eq (hb : Geometry b top) (hs : Sound b top d first)
    (h : Created b top d dir k e l d') {q : ℕ} (hq : IsDir b d q) (j : ℕ) :
    slotAddr b d' q j = slotAddr b d q j := by
  rw [slotAddr, slotAddr, h.sectors hb hs hq]

theorem hasSlot_iff (hb : Geometry b top) (hs : Sound b top d first)
    (h : Created b top d dir k e l d') {q : ℕ} (hq : IsDir b d q) :
    HasSlot b d' q j ↔ HasSlot b d q j := by
  rw [HasSlot, HasSlot, h.sectors hb hs hq]

/-- All other slots keep their bytes. -/
theorem slot_other (hb : Geometry b top) (hs : Sound b top d first)
    (h : Created b top d dir k e l d') {q : ℕ} (hq : IsDir b d q) (hj : HasSlot b d q j)
    (hne : slotAddr b d q j ≠ slotAddr b d dir k) {x : ℕ} (hx : x < 32) :
    entryAt d' (slotAddr b d q j) x = entryAt d (slotAddr b d q j) x := by
  refine h.frame.dirByte_eq hb hs h.private_chain ⟨q, j, x, hq, hj, hx, rfl⟩ fun hin => ?_
  have := slotAddr_mod b d q j
  have := slotAddr_mod b d dir k
  unfold SlotBytes at hin
  omega

/-- A free slot is not live. -/
theorem live_ne (h : Created b top d dir k e l d') {q : ℕ} (hlive : LiveSlot b d q j) :
    slotAddr b d q j ≠ slotAddr b d dir k := by
  intro heq
  have hvisible := hlive.visible
  rw [heq] at hvisible
  exact hvisible.not_isFree h.slot.free

theorem byte_zero (hb : Geometry b top) (hs : Sound b top d first)
    (h : Created b top d dir k e l d') {q : ℕ} (hq : IsDir b d q) (hj : HasSlot b d q j)
    (hd : d (slotAddr b d q j) ≠ 0) : d' (slotAddr b d q j) ≠ 0 := by
  by_cases heq : slotAddr b d q j = slotAddr b d dir k
  · have hentry := h.entry 0 (by omega)
    rw [entryAt, Nat.add_zero] at hentry
    rw [heq, hentry]
    exact h.named
  · have hother := h.slot_other hb hs hq hj heq (show 0 < 32 by omega)
    rw [entryAt, entryAt, Nat.add_zero] at hother
    rwa [hother]

/-- The entries that were live are still. -/
theorem live_of_live (hb : Geometry b top) (hs : Sound b top d first)
    (h : Created b top d dir k e l d') {q : ℕ} (hq : IsDir b d q)
    (hlive : LiveSlot b d q j) : LiveSlot b d' q j := by
  obtain ⟨m, hm, -⟩ := hs.exists_dirChain hq
  have hother : ∀ x < 26, entryAt d' (slotAddr b d q j) x = entryAt d (slotAddr b d q j) x :=
    fun x hx => h.slot_other hb hs hq hlive.has (h.live_ne hlive) (by omega)
  refine ⟨(h.hasSlot_iff hb hs hq).2 hlive.has, fun i hi => ?_, ?_⟩
  · rw [h.slotAddr_eq hb hs hq]
    exact h.byte_zero hb hs hq (hasSlot_of_le hb hm hlive.has (Nat.le_of_lt hi))
      (hlive.before i hi)
  · rw [h.slotAddr_eq hb hs hq, visible_congr hother]
    exact hlive.visible

/-- A live entry of an old directory is the new one or was live before. -/
theorem live_cases (hb : Geometry b top) (hs : Sound b top d first) (hzero : ZeroTail b d)
    (h : Created b top d dir k e l d') {q : ℕ} (hq : IsDir b d q)
    (hlive : LiveSlot b d' q j) :
    slotAddr b d q j = slotAddr b d dir k ∨ LiveSlot b d q j := by
  by_cases heq : slotAddr b d q j = slotAddr b d dir k
  · exact Or.inl heq
  · right
    have hhas := (h.hasSlot_iff hb hs hq).1 hlive.has
    have hother : ∀ x < 26, entryAt d' (slotAddr b d q j) x = entryAt d (slotAddr b d q j) x :=
      fun x hx => h.slot_other hb hs hq hhas heq (by omega)
    have hvisible := hlive.visible
    rw [h.slotAddr_eq hb hs hq, visible_congr hother] at hvisible
    refine ⟨hhas, fun i hi hzero' => ?_, hvisible⟩
    exact hvisible.first_ne_zero (hzero q i j hq hi hhas hzero')

theorem isDir_of_isDir (hb : Geometry b top) (hs : Sound b top d first)
    (h : Created b top d dir k e l d') {q : ℕ} (hq : IsDir b d q) : IsDir b d' q := by
  induction hq with
  | root => exact IsDir.root
  | @child q j hq hlive hisDir hdot ih =>
      have hother : ∀ x < 32, entryAt d' (slotAddr b d q j) x = entryAt d (slotAddr b d q j) x :=
        fun x hx => h.slot_other hb hs hq hlive.has (h.live_ne hlive) hx
      have hhead : ∀ x < 26, entryAt d' (slotAddr b d q j) x = entryAt d (slotAddr b d q j) x :=
        fun x hx => hother x (by omega)
      rw [← isDirectory_congr hhead, ← h.slotAddr_eq hb hs hq] at hisDir
      rw [← isDot_congr hhead, ← h.slotAddr_eq hb hs hq] at hdot
      rw [← firstCluster_congr hother, ← h.slotAddr_eq hb hs hq]
      exact IsDir.child ih (h.live_of_live hb hs hq hlive) hisDir hdot

/-- The only new directory is the one that was created, if it is one. -/
theorem isDir_cases (hb : Geometry b top) (hs : Sound b top d first) (hzero : ZeroTail b d)
    (h : Created b top d dir k e l d') {q : ℕ} (hq : IsDir b d' q) :
    IsDir b d q ∨ (isDirectory e = true ∧ q = firstCluster e) := by
  induction hq with
  | root => exact Or.inl IsDir.root
  | @child q j _ hlive hisDir hdot ih =>
      rcases ih with hq | ⟨hdirEntry, rfl⟩
      · rw [h.slotAddr_eq hb hs hq] at hisDir hdot ⊢
        rcases h.live_cases hb hs hzero hq hlive with heq | hlive'
        · right
          rw [heq] at hisDir ⊢
          rw [isDirectory_congr fun x hx => h.entry x (by omega)] at hisDir
          exact ⟨hisDir, firstCluster_congr h.entry⟩
        · left
          have hother : ∀ x < 32,
              entryAt d' (slotAddr b d q j) x = entryAt d (slotAddr b d q j) x :=
            fun x hx => h.slot_other hb hs hq hlive'.has (h.live_ne hlive') hx
          have hhead : ∀ x < 26,
              entryAt d' (slotAddr b d q j) x = entryAt d (slotAddr b d q j) x :=
            fun x hx => hother x (by omega)
          rw [isDirectory_congr hhead] at hisDir
          rw [isDot_congr hhead] at hdot
          rw [firstCluster_congr hother]
          exact IsDir.child hq hlive' hisDir hdot
      · -- the slots of the new directory are dot entries or zero
        have hslot := h.empty hdirEntry j hlive.has
        rcases Nat.lt_or_ge j 2 with hlt | htwo
        · rw [(hslot.1 hlt).2.1] at hdot
          exact Bool.noConfusion hdot
        · exact absurd (hslot.2 htwo) hlive.visible.first_ne_zero

theorem owner_of_owner (hb : Geometry b top) (hs : Sound b top d first)
    (h : Created b top d dir k e l d') {g : ℕ} (hg : Owner b d g) :
    Owner b d' g ∧ g ≠ slotAddr b d dir k ∧ ∀ x < 32, entryAt d' g x = entryAt d g x := by
  obtain ⟨⟨q, j, hq, hlive, rfl⟩, hdot⟩ := hg
  have hne := h.live_ne hlive
  have hother : ∀ x < 32, entryAt d' (slotAddr b d q j) x = entryAt d (slotAddr b d q j) x :=
    fun x hx => h.slot_other hb hs hq hlive.has hne hx
  refine ⟨⟨⟨q, j, h.isDir_of_isDir hb hs hq, h.live_of_live hb hs hq hlive,
    h.slotAddr_eq hb hs hq j⟩, ?_⟩, hne, hother⟩
  rw [isDot_congr fun x hx => hother x (by omega)]
  exact hdot

/-- The only new entry is the one that was created. -/
theorem owner_cases (hb : Geometry b top) (hs : Sound b top d first) (hzero : ZeroTail b d)
    (h : Created b top d dir k e l d') {g : ℕ} (hg : Owner b d' g) :
    g = slotAddr b d dir k ∨ Owner b d g := by
  obtain ⟨⟨q, j, hq, hlive, rfl⟩, hdot⟩ := hg
  rcases h.isDir_cases hb hs hzero hq with hq | ⟨hdirEntry, rfl⟩
  · rw [h.slotAddr_eq hb hs hq] at hdot ⊢
    rcases h.live_cases hb hs hzero hq hlive with heq | hlive'
    · exact Or.inl heq
    · have hother : ∀ x < 26, entryAt d' (slotAddr b d q j) x = entryAt d (slotAddr b d q j) x :=
        fun x hx => h.slot_other hb hs hq hlive'.has (h.live_ne hlive') (by omega)
      rw [isDot_congr hother] at hdot
      exact Or.inr ⟨⟨q, j, hq, hlive', rfl⟩, hdot⟩
  · have hslot := h.empty hdirEntry j hlive.has
    rcases Nat.lt_or_ge j 2 with hlt | htwo
    · rw [(hslot.1 hlt).2.1] at hdot
      exact Bool.noConfusion hdot
    · exact absurd (hslot.2 htwo) hlive.visible.first_ne_zero

/-- Zero slots still end every directory. -/
theorem zeroTail (hb : Geometry b top) (hs : Sound b top d first) (hzero : ZeroTail b d)
    (hdir : IsDir b d dir) (h : Created b top d dir k e l d') : ZeroTail b d' := by
  intro q j i hq hji hi hj
  rcases h.isDir_cases hb hs hzero hq with hq | ⟨hdirEntry, rfl⟩
  · obtain ⟨m, hm, -⟩ := hs.exists_dirChain hq
    rw [h.slotAddr_eq hb hs hq] at hj ⊢
    have hi := (h.hasSlot_iff hb hs hq).1 hi
    have hj' := hasSlot_of_le hb hm hi (Nat.le_of_lt hji)
    have hjzero : d (slotAddr b d q j) = 0 := by
      by_contra hne
      exact h.byte_zero hb hs hq hj' hne hj
    by_cases heq : slotAddr b d q i = slotAddr b d dir k
    · obtain ⟨rfl, rfl⟩ := slotAddr_inj hb hs hq hdir hi h.slot.has heq
      exact absurd (Or.inl hjzero) (h.slot.first j hji)
    · have hother := h.slot_other hb hs hq hi heq (show 0 < 32 by omega)
      rw [entryAt, entryAt, Nat.add_zero] at hother
      rw [hother]
      exact hzero q j i hq hji hi hjzero
  · have hjslot := h.empty hdirEntry j (hasSlot_of_le hb h.chain hi (Nat.le_of_lt hji))
    have hjtwo : 2 ≤ j := by
      by_contra hlt
      exact (hjslot.1 (by omega)).1 hj
    exact (h.empty hdirEntry i hi).2 (by omega)

theorem chain_other (hb : Geometry b top) (h : Created b top d dir k e l d') {q : ℕ}
    {m : List ℕ} (hm : FileChain b top d q m) : FileChain b top d' q m :=
  hm.congr fun x hx => h.frame.fat x ((hm.inUse hx).lt_table hb) fun hxl =>
    hm.fatAt_ne_zero hx (h.fresh x hxl).2

theorem freeBelow (hs : Sound b top d first) (h : Created b top d dir k e l d') :
    FreeBelow b top d' := by
  intro i hi hzero
  by_cases hmem : i ∈ l
  · exact absurd hzero (h.chain.fatAt_ne_zero hmem)
  · rw [h.frame.fat i hi hmem] at hzero
    exact hs.free i hi hzero

/-- The volume is sound again, with the first cluster of the new entry. -/
theorem sound (hb : Geometry b top) (hs : Sound b top d first) (hzero : ZeroTail b d)
    (h : Created b top d dir k e l d') :
    Sound b top d' (Function.update first (slotAddr b d dir k) (firstCluster e)) := by
  have hself : Function.update first (slotAddr b d dir k) (firstCluster e)
      (slotAddr b d dir k) = firstCluster e := Function.update_self ..
  have hothers : ∀ g, g ≠ slotAddr b d dir k →
      Function.update first (slotAddr b d dir k) (firstCluster e) g = first g :=
    fun g hne => Function.update_of_ne hne ..
  have holder : ∀ g, Owner b d' g → g ≠ slotAddr b d dir k → Owner b d g := fun g hg hne =>
    (h.owner_cases hb hs hzero hg).resolve_left hne
  -- the chains of the old entries are the old ones, and have no cluster of the new one
  have hold (g : ℕ) (hg : Owner b d g) (m : List ℕ) (hm : FileChain b top d' (first g) m) :
      FileChain b top d (first g) m ∧ m.Disjoint l := by
    obtain ⟨m', hm'⟩ := hs.chain g hg
    obtain rfl := hm.unique hb (h.chain_other hb hm')
    exact ⟨hm', fun x hx hxl => hm'.fatAt_ne_zero hx (h.fresh x hxl).2⟩
  refine ⟨h.freeBelow hs, fun g hg => ?_, fun g g' m m' hg hg' hne hm hm' => ?_,
    fun g hg htwo => ?_⟩
  · by_cases heq : g = slotAddr b d dir k
    · rw [heq, hself]
      exact ⟨l, h.chain⟩
    · obtain ⟨m, hm⟩ := hs.chain g (holder g hg heq)
      rw [hothers g heq]
      exact ⟨m, h.chain_other hb hm⟩
  · by_cases heq : g = slotAddr b d dir k
    · have hne' : g' ≠ slotAddr b d dir k := fun h' => hne (heq.trans h'.symm)
      rw [heq, hself] at hm
      rw [hothers g' hne'] at hm'
      obtain rfl := hm.unique hb h.chain
      exact fun x hx hx' => (hold g' (holder g' hg' hne') m' hm').2 hx' hx
    · rw [hothers g heq] at hm
      obtain ⟨hm, hdisj⟩ := hold g (holder g hg heq) m hm
      by_cases heq' : g' = slotAddr b d dir k
      · rw [heq', hself] at hm'
        obtain rfl := hm'.unique hb h.chain
        exact hdisj
      · rw [hothers g' heq'] at hm'
        exact hs.disjoint g g' m m' (holder g hg heq) (holder g' hg' heq') hne hm
          (hold g' (holder g' hg' heq') m' hm').1
  · by_cases heq : g = slotAddr b d dir k
    · rw [heq, hself]
      rw [firstCluster_congr h.entry]
    · have hg' := holder g hg heq
      have hother := (h.owner_of_owner hb hs hg').2.2
      rw [hothers g heq]
      rw [firstCluster_congr hother] at htwo ⊢
      exact hs.onDisk g hg' htwo

end Created

/-! ## A call that creates nothing -/

/-- The first free slot is found on either disk. -/
theorem SameTree.firstFree_iff (hb : Geometry b top) (hs : Sound b top d first) {f : ℕ}
    (h : SameTree b d d' f) {q : ℕ} (hq : IsDir b d q) :
    FirstFree b d' q j ↔ FirstFree b d q j := by
  obtain ⟨m, hm, -⟩ := hs.exists_dirChain hq
  have hfree : ∀ i, HasSlot b d q i →
      (IsFree (entryAt d' (slotAddr b d' q i)) ↔ IsFree (entryAt d (slotAddr b d q i))) := by
    intro i hi
    have hbyte := h.head q i hq hi 0 (by omega)
    rw [h.slotAddr_eq hq, IsFree, IsFree, entryAt, entryAt, hbyte]
  constructor
  · rintro ⟨hhas, hisFree, hfirst⟩
    have hhas' := (h.hasSlot_iff hq).1 hhas
    refine ⟨hhas', (hfree j hhas').1 hisFree, fun i hi hi' => hfirst i hi ?_⟩
    exact (hfree i (hasSlot_of_le hb hm hhas' (Nat.le_of_lt hi))).2 hi'
  · rintro ⟨hhas, hisFree, hfirst⟩
    refine ⟨(h.hasSlot_iff hq).2 hhas, (hfree j hhas).2 hisFree, fun i hi hi' => hfirst i hi ?_⟩
    exact (hfree i (hasSlot_of_le hb hm hhas (Nat.le_of_lt hi))).1 hi'

namespace Unharmed

theorem refl (b : Bpb) (top : ℕ) (d : Disk) : Unharmed b top d d :=
  ⟨fun _ _ => rfl, Frame.refl b d _ _⟩

theorem sameTree (hb : Geometry b top) (hs : Sound b top d first) (h : Unharmed b top d d') :
    SameTree b d d' 1 :=
  h.frame.sameTree_of_clean hb hs fun _ hc => ⟨hc.1, Or.inl hc.2⟩

theorem fileChain_iff (hb : Geometry b top) (h : Unharmed b top d d') {q : ℕ} {m : List ℕ} :
    FileChain b top d' q m ↔ FileChain b top d q m :=
  ⟨fun hm => hm.congr fun x hx => (h.table x ((hm.inUse hx).lt_table hb)).symm,
    fun hm => hm.congr fun x hx => h.table x ((hm.inUse hx).lt_table hb)⟩

/-- Every slot of every directory is as it was. -/
theorem slot_eq (hb : Geometry b top) (hs : Sound b top d first) (h : Unharmed b top d d')
    {q : ℕ} (hq : IsDir b d q) (hj : HasSlot b d q j) {x : ℕ} (hx : x < 32) :
    slotAddr b d' q j = slotAddr b d q j ∧
      entryAt d' (slotAddr b d q j) x = entryAt d (slotAddr b d q j) x := by
  have htree := h.sameTree hb hs
  refine ⟨htree.slotAddr_eq hq j, htree.other q j hq hj (fun heq => ?_) x hx⟩
  have := slotAddr_mod b d q j
  omega

theorem owner_iff (hb : Geometry b top) (hs : Sound b top d first) (h : Unharmed b top d d')
    {g : ℕ} : Owner b d' g ↔ Owner b d g :=
  (h.sameTree hb hs).owner_iff hb hs

theorem owner_entry (hb : Geometry b top) (hs : Sound b top d first) (h : Unharmed b top d d')
    {g : ℕ} (hg : Owner b d g) : ∀ x < 32, entryAt d' g x = entryAt d g x := by
  refine (h.sameTree hb hs).liveEntry_other hg.1 ?_
  rintro rfl
  obtain ⟨⟨q, j, -, -, heq⟩, -⟩ := hg
  have := slotAddr_mod b d q j
  omega

theorem sound (hb : Geometry b top) (hs : Sound b top d first) (h : Unharmed b top d d') :
    Sound b top d' first where
  free i hi hzero := hs.free i hi ((h.table i hi).symm.trans hzero)
  chain g hg := by
    obtain ⟨m, hm⟩ := hs.chain g ((h.owner_iff hb hs).1 hg)
    exact ⟨m, (h.fileChain_iff hb).2 hm⟩
  disjoint g g' m m' hg hg' hne hm hm' :=
    hs.disjoint g g' m m' ((h.owner_iff hb hs).1 hg) ((h.owner_iff hb hs).1 hg') hne
      ((h.fileChain_iff hb).1 hm) ((h.fileChain_iff hb).1 hm')
  onDisk g hg htwo := by
    have hg' := (h.owner_iff hb hs).1 hg
    rw [firstCluster_congr (h.owner_entry hb hs hg')] at htwo ⊢
    exact hs.onDisk g hg' htwo

theorem zeroTail (hb : Geometry b top) (hs : Sound b top d first) (hzero : ZeroTail b d)
    (h : Unharmed b top d d') : ZeroTail b d' :=
  (h.sameTree hb hs).zeroTail hb hs hzero

end Unharmed

/-! ## The two branches of the call -/

/-- The call stops before it writes a slot: the name does not fit, the directory is
full, or there is no cluster for a new directory. -/
def NotCreated (b : Bpb) (d : Disk) (dir : ℕ) (name : List UInt8) (flags : UInt32) : Prop :=
  formatName83 name = none ∨
    (∀ k, HasSlot b d dir k → ¬ IsFree (entryAt d (slotAddr b d dir k))) ∨
    (flags &&& vfsDir ≠ 0 ∧ Full b d)

/-- The entry that the call writes: `attr` is `FAT16_ATTR_DIRECTORY` or
`FAT16_ATTR_ARCHIVE`. -/
def createdEntry (name83 ext83 : Bytes) (c : ℕ) (flags : UInt32) : Bytes :=
  newEntry name83 ext83 c 0 (if flags &&& vfsDir ≠ 0 then 0x10 else 0x20)

theorem isDirectory_createdEntry (name83 ext83 : Bytes) (c : ℕ) (flags : UInt32) :
    isDirectory (createdEntry name83 ext83 c flags) = decide (flags &&& vfsDir ≠ 0) := by
  rw [isDirectory, createdEntry, attributes_newEntry]
  by_cases hdir : flags &&& vfsDir ≠ 0
  · rw [if_pos hdir, decide_eq_true hdir]
    rfl
  · rw [if_neg hdir, decide_eq_false hdir]
    rfl

theorem isDot_createdEntry {name83 ext83 : Bytes} (h : formatName83 name = some (name83, ext83))
    (c : ℕ) (flags : UInt32) : isDot (createdEntry name83 ext83 c flags) = false := by
  have hdot := formatName83_first_ne_dot h
  have hzero : createdEntry name83 ext83 c flags 0 = name83 0 := newEntry_zero ..
  have hraw : rawName (createdEntry name83 ext83 c flags) = name83 0 ::
      ((List.range 10).map fun x => createdEntry name83 ext83 c flags (x + 1)) := by
    rw [← hzero]
    rfl
  rw [isDot, hraw, Bool.and_eq_false_iff]
  right
  simp [hdot]

theorem fatFreeChain_single (hb : Geometry b top) (hc : InUse top c)
    (hmark : fatAt b d c = 0xFFFF) {d' : Disk} (h : fatFreeChain b fuel c d = some d') :
    d' = fatSetEntry b d c 0 := by
  have hcluster := isCluster_of_inUse hb hc
  have hend : isCluster 0xFFFF = false := rfl
  have hstop : ∀ n d, fatFreeChain b n 0xFFFF d = some d := by
    intro n d
    cases n <;> simp [fatFreeChain, hend]
  cases fuel with
  | zero => simp [fatFreeChain, hcluster] at h
  | succ fuel =>
      rw [fatFreeChain, if_pos hcluster, fatEntry_eq (hc.lt hb), hmark, hstop] at h
      exact (Option.some.inj h).symm

/-- A slot of a directory lies in no private cluster. -/
theorem not_slotBytes_of_inCluster (hb : Geometry b top) (hs : Sound b top d first)
    (hdir : IsDir b d dir) (hk : HasSlot b d dir k) {S : ℕ → Prop} (hS : Private b top d first S)
    {y x : ℕ} (hy : S y) (hx : InCluster b y x) : ¬ SlotBytes (slotAddr b d dir k) x := by
  intro hslot
  obtain ⟨i, rfl⟩ := Nat.exists_eq_add_of_le hslot.1
  have hi : i < 32 := by
    have := hslot.2
    omega
  have hbyte : DirByte b d (slotAddr b d dir k + i) := ⟨dir, k, i, hdir, hk, hi, rfl⟩
  exact hbyte.not_inCluster hb hs hS hy hx

/-- The file branch, and the directory branch once its cluster is there: `d₁` is the
disk before the parent's slot is searched. -/
theorem created_of_cases (hb : Geometry b top) (hs : Sound b top d first)
    (hdir : IsDir b d dir) (hname : 0 ∉ name) {name83 ext83 : Bytes} {flags : UInt32}
    (hformat : formatName83 name = some (name83, ext83)) {d₁ : Disk} {c : ℕ} {l : List ℕ}
    (hlt : c < 65536) (hfresh : ∀ x ∈ l, InUse top x ∧ fatAt b d x = 0)
    (hchain : FileChain b top d₁ c l) (hframe : Frame b d d₁ (· ∈ l) fun _ => False)
    (hempty : flags &&& vfsDir ≠ 0 → ∀ d' : Disk, (∀ x, (∃ y ∈ l, InCluster b y x) → d' x = d₁ x) →
      FileChain b top d' c l → ∀ j, HasSlot b d' c j → FreshSlot b d' c j)
    (hslot : FirstFree b d₁ dir k) :
    Created b top d dir k (createdEntry name83 ext83 c flags) l
      (copy d₁ (slotAddr b d₁ dir k) (createdEntry name83 ext83 c flags) 0 32) := by
  have hprivate : Private b top d first (· ∈ l) := fun x hx =>
    ⟨(hfresh x hx).1, Or.inl (hfresh x hx).2⟩
  have htree := hframe.sameTree_of_clean hb hs hprivate
  have hslot' := (htree.firstFree_iff hb hs hdir).1 hslot
  have hbytes (x : ℕ) (hx : x < 32) : DirByte b d (slotAddr b d dir k + x) :=
    ⟨dir, k, x, hdir, hslot'.has, hx, rfl⟩
  have hroot := (hbytes 0 (by omega)).rootAddr_le hb hs
  have hout : ∀ {x : ℕ}, ¬ SlotBytes (slotAddr b d dir k) x →
      copy d₁ (slotAddr b d dir k) (createdEntry name83 ext83 c flags) 0 32 x = d₁ x := by
    intro x hx
    unfold SlotBytes at hx
    exact copy_of_apart _ _ _ (by omega)
  have hfat (S : ℕ → Prop) : Frame b d₁
      (copy d₁ (slotAddr b d dir k) (createdEntry name83 ext83 c flags) 0 32) S
      (SlotBytes (slotAddr b d dir k)) := by
    refine ⟨fun y hy _ => fatAt_congr hb hy fun x hx => hout fun hin => ?_,
      fun x _ _ hx => hout hx⟩
    have := hin.1
    omega
  have hfirst : firstCluster (createdEntry name83 ext83 c flags) = c :=
    firstCluster_newEntry _ _ _ _ hlt
  have hchain' : FileChain b top
      (copy d₁ (slotAddr b d dir k) (createdEntry name83 ext83 c flags) 0 32) c l :=
    hchain.congr fun x hx => (hfat fun _ => False).fat x ((hchain.inUse hx).lt_table hb) id
  rw [htree.slotAddr_eq hdir]
  refine ⟨hslot', hfresh, by rwa [hfirst], (hframe.mono (fun _ h => h) fun _ => False.elim).trans
    (hfat _), fun x hx => ?_, ?_, isDot_createdEntry hformat c flags, fun hisDir => ?_⟩
  · rw [entryAt, copy_of_mem _ _ (by omega)]
    refine congrArg _ ?_
    omega
  · rw [createdEntry, newEntry_zero]
    exact formatName83_first_ne_zero hname hformat
  · rw [isDirectory_createdEntry, decide_eq_true_eq] at hisDir
    rw [hfirst]
    refine hempty hisDir _ (fun x hx => hout ?_) hchain'
    obtain ⟨y, hy, hin⟩ := hx
    exact not_slotBytes_of_inCluster hb hs hdir hslot'.has hprivate hy hin

/-- The call for a directory: the bytes of the new directory's cluster are those that it
started with. -/
theorem fat16VfsCreate_subdir {fs fs' : Fs} {node : VfsNode} {flags : UInt32}
    {r : Option VfsNode} (hb : Geometry fs.bpb top) (hs : Sound fs.bpb top fs.disk first)
    (hmounted : fs.mounted = true) (hdir : IsDir fs.bpb fs.disk node.inode) (hname : 0 ∉ name)
    (hflag : flags &&& vfsDir ≠ 0)
    (hrun : fat16VfsCreate fuel node name flags fs = some (r, fs')) :
    (r = none ∧ fs'.bpb = fs.bpb ∧ fs'.mounted = true ∧
        Unharmed fs.bpb top fs.disk fs'.disk ∧
        NotCreated fs.bpb fs.disk node.inode name flags) ∨
      ∃ name83 ext83 k c d', formatName83 name = some (name83, ext83) ∧
        Created fs.bpb top fs.disk node.inode k (createdEntry name83 ext83 c flags) [c] d' ∧
        (∀ x, InCluster fs.bpb c x → d' x = initDirCluster fs.bpb
          (fatSetEntry fs.bpb fs.disk c 0xFFFF) c node.inode x) ∧
        fat16VfsFinddir fuel node name { fs with disk := d' } = some (r, fs') := by
  unfold fat16VfsCreate at hrun
  rw [if_pos hmounted] at hrun
  rw [if_pos hflag] at hrun
  rcases fatAllocCluster_cases hb hs.free with ⟨hfull, halloc⟩ | ⟨c, hc, hzero, halloc⟩
  · rw [halloc] at hrun
    simp only [if_true, Option.some.injEq, Prod.mk.injEq] at hrun
    obtain ⟨rfl, rfl⟩ := hrun
    exact Or.inl ⟨rfl, rfl, hmounted, Unharmed.refl _ _ _, Or.inr (Or.inr ⟨hflag, hfull⟩)⟩
  · have hne : c ≠ 0 := by
      have := hc.1
      omega
    rw [halloc] at hrun
    simp only [hne, if_false] at hrun
    obtain ⟨⟨ok, d₂⟩, hwrite, hrun⟩ := Option.bind_eq_some_iff.1 hrun
    -- the disk with the new directory's cluster, before the parent is searched
    have hgrown := grown_alloc hb hc hzero
    have hinit := frame_initDirCluster (d := fatSetEntry fs.bpb fs.disk c 0xFFFF) hb hc
      node.inode
    have hframe : Frame fs.bpb fs.disk (initDirCluster fs.bpb
        (fatSetEntry fs.bpb fs.disk c 0xFFFF) c node.inode) (· ∈ [c]) fun _ => False :=
      hgrown.frame.trans (hinit.mono (fun _ h => List.mem_singleton.2 h) fun _ h => h)
    have hfresh : ∀ x ∈ [c], InUse top x ∧ fatAt fs.bpb fs.disk x = 0 := by
      intro x hx
      rw [List.mem_singleton.1 hx]
      exact ⟨hc, hzero⟩
    have hprivate : Private fs.bpb top fs.disk first (· ∈ [c]) := fun x hx =>
      ⟨(hfresh x hx).1, Or.inl (hfresh x hx).2⟩
    have htree := hframe.sameTree_of_clean hb hs hprivate
    obtain ⟨m, hm, -⟩ := hs.exists_dirChain hdir
    have hm₁ : FileChain fs.bpb top (initDirCluster fs.bpb
        (fatSetEntry fs.bpb fs.disk c 0xFFFF) c node.inode) node.inode m :=
      hm.congr fun x hx => hframe.fat x ((hm.inUse hx).lt_table hb) fun hxc =>
        hm.fatAt_ne_zero hx (hfresh x hxc).2
    have hmark : fatAt fs.bpb (initDirCluster fs.bpb
        (fatSetEntry fs.bpb fs.disk c 0xFFFF) c node.inode) c = 0xFFFF := by
      have hset : fatAt fs.bpb (fatSetEntry fs.bpb fs.disk c 0xFFFF) c = 0xFFFF :=
        fatAt_fatSetEntry_self (hc.lt hb) (hc.lt_table hb) (by omega)
      refine (fatAt_congr hb (hc.lt_table hb) fun x hx => ?_).trans hset
      refine initDirCluster_of_not_mem hc.1 (hc.lt hb) hb.spc_pos _ fun hin => ?_
      have := dataAddr_le_of_inCluster hc.1 (hc.lt hb) hin
      have := rootAddr_le_dataAddr fs.bpb
      omega
    rcases fat16WriteDirEntry_cases hb hm₁ hwrite with
      ⟨rfl, rfl, hwhy⟩ | ⟨name83, ext83, k, rfl, hformat, hslot, rfl⟩
    · obtain ⟨d₃, hfreeChain, hrun⟩ := Option.map_eq_some_iff.1 hrun
      simp only [Prod.mk.injEq] at hrun
      obtain ⟨rfl, rfl⟩ := hrun
      have hd₃ := fatFreeChain_single hb hc hmark hfreeChain
      refine Or.inl ⟨rfl, rfl, hmounted, ⟨fun x hx => ?_, ?_⟩, ?_⟩
      · dsimp only
        rw [hd₃]
        by_cases hxc : x = c
        · rw [hxc, fatAt_fatSetEntry_self (hc.lt hb) (hc.lt_table hb) (by omega), hzero]
        · rw [fatAt_fatSetEntry_of_ne (hc.lt hb) hx hxc]
          exact hframe.fat x hx fun hmem => hxc (List.mem_singleton.1 hmem)
      · dsimp only
        rw [hd₃]
        exact (hframe.trans ((frame_fatSetEntry hb hc 0).mono
          (fun _ h => List.mem_singleton.2 h) fun _ h => h)).mono hfresh fun _ h => h
      · rcases hwhy with hbad | hnofree
        · exact Or.inl hbad
        · refine Or.inr (Or.inl fun k hk hfree => hnofree k ((htree.hasSlot_iff hdir).2 hk) ?_)
          have hbyte := htree.head _ k hdir hk 0 (by omega)
          rw [htree.slotAddr_eq hdir, IsFree, entryAt, hbyte]
          exact hfree
    · have hslot' := (htree.firstFree_iff hb hs hdir).1 hslot
      refine Or.inr ⟨name83, ext83, k, c, _, hformat, ?_, fun x hx => ?_, hrun⟩
      swap
      · have hout := not_slotBytes_of_inCluster hb hs hdir hslot'.has hprivate
          (List.mem_singleton.2 rfl) hx
        unfold SlotBytes at hout
        rw [htree.slotAddr_eq hdir, copy_of_apart _ _ _ (by omega)]
      have hentry : createdEntry name83 ext83 c flags = newEntry name83 ext83 c 0 0x10 := by
        rw [createdEntry, if_pos hflag]
      rw [← hentry]
      refine created_of_cases hb hs hdir hname hformat (hc.lt hb) hfresh ?_ hframe
        (fun _ d' hbytes hchain j hj => ?_) hslot
      · refine (fileChain_of_two_le hc.1).2 ⟨by simp, Chain.single hc ?_⟩
        rw [hmark]
        exact Nat.le_of_ble_eq_true rfl
      · exact freshSlot_initDirCluster hb hc
          (fun x hx => hbytes x ⟨c, List.mem_singleton.2 rfl, hx⟩) (hchain.clusterChain hc.1) hj

/-- A call of `fat16_vfs_create` either changes nothing and returns `NULL`, or makes the
entry and ends with the lookup. -/
theorem fat16VfsCreate_cases {fs fs' : Fs} {node : VfsNode} {flags : UInt32}
    {r : Option VfsNode} (hb : Geometry fs.bpb top) (hs : Sound fs.bpb top fs.disk first)
    (hmounted : fs.mounted = true) (hdir : IsDir fs.bpb fs.disk node.inode) (hname : 0 ∉ name)
    (hrun : fat16VfsCreate fuel node name flags fs = some (r, fs')) :
    (r = none ∧ fs'.bpb = fs.bpb ∧ fs'.mounted = true ∧
        Unharmed fs.bpb top fs.disk fs'.disk ∧
        NotCreated fs.bpb fs.disk node.inode name flags) ∨
      ∃ name83 ext83 k c l d', formatName83 name = some (name83, ext83) ∧
        Created fs.bpb top fs.disk node.inode k (createdEntry name83 ext83 c flags) l d' ∧
        ((flags &&& vfsDir ≠ 0 ∧ l = [c]) ∨ (flags &&& vfsDir = 0 ∧ c = 0 ∧ l = [])) ∧
        fat16VfsFinddir fuel node name { fs with disk := d' } = some (r, fs') := by
  by_cases hflag : flags &&& vfsDir ≠ 0
  · rcases fat16VfsCreate_subdir hb hs hmounted hdir hname hflag hrun with
      hnone | ⟨name83, ext83, k, c, d', hformat, hcreated, -, hfind⟩
    · exact Or.inl hnone
    · exact Or.inr ⟨name83, ext83, k, c, [c], d', hformat, hcreated, Or.inl ⟨hflag, rfl⟩, hfind⟩
  · have hzero : flags &&& vfsDir = 0 := not_not.1 hflag
    unfold fat16VfsCreate at hrun
    rw [if_pos hmounted] at hrun
    rw [if_neg hflag] at hrun
    obtain ⟨⟨ok, d₂⟩, hwrite, hrun⟩ := Option.bind_eq_some_iff.1 hrun
    obtain ⟨m, hm, -⟩ := hs.exists_dirChain hdir
    rcases fat16WriteDirEntry_cases hb hm hwrite with
      ⟨rfl, rfl, hwhy⟩ | ⟨name83, ext83, k, rfl, hformat, hslot, rfl⟩
    · simp only [Option.some.injEq, Prod.mk.injEq] at hrun
      obtain ⟨rfl, rfl⟩ := hrun
      refine Or.inl ⟨rfl, rfl, hmounted, Unharmed.refl _ _ _, ?_⟩
      exact hwhy.imp_right Or.inl
    · refine Or.inr ⟨name83, ext83, k, 0, [], _, hformat, ?_, Or.inr ⟨hzero, rfl, rfl⟩, hrun⟩
      have hentry : createdEntry name83 ext83 0 flags = newEntry name83 ext83 0 0 0x20 := by
        rw [createdEntry, if_neg hflag]
      rw [← hentry]
      exact created_of_cases hb hs hdir hname hformat (by omega) (fun x hx => by cases hx)
        ((fileChain_of_lt (by omega)).2 rfl) (Frame.refl _ _ _ _)
        (fun h => absurd hzero h) hslot

end Fat16

end Yotos
