import Yotos.Fat16.Volume

/-!
# What an operation leaves alone

An operation of the driver works on a few clusters, whose table entries and bytes it
may change, and on one directory slot. The clusters are the ones of a file or free
ones, so none of them holds a directory. `Frame` states what such an operation keeps;
the sectors of every directory are the same afterwards, and so are their bytes
outside the slot.
-/

namespace Yotos

namespace Fat16

open Bytes Library

variable {b : Bpb} {top : ℕ} {d d' : Disk} {first : ℕ → ℕ} {c a k dir f : ℕ} {l : List ℕ}

/-- The disks agree outside the clusters in `S` and the bytes in `W`. -/
structure Frame (b : Bpb) (d d' : Disk) (S W : ℕ → Prop) : Prop where
  fat : ∀ c < 256 * b.fatSize, ¬ S c → fatAt b d' c = fatAt b d c
  bytes : ∀ x, 512 * b.rootDirLba ≤ x → (∀ c, S c → ¬ InCluster b c x) → ¬ W x → d' x = d x

/-- The clusters in `S` are free or belong to files. -/
def Private (b : Bpb) (top : ℕ) (d : Disk) (first : ℕ → ℕ) (S : ℕ → Prop) : Prop :=
  ∀ c, S c → InUse top c ∧ (fatAt b d c = 0 ∨ ∃ g l, Owner b d g ∧
    isDirectory (entryAt d g) = false ∧ FileChain b top d (first g) l ∧ c ∈ l)

/-- The byte `x` is in a slot of a directory. -/
def DirByte (b : Bpb) (d : Disk) (x : ℕ) : Prop :=
  ∃ dir k i, IsDir b d dir ∧ HasSlot b d dir k ∧ i < 32 ∧ x = slotAddr b d dir k + i

theorem Frame.refl (b : Bpb) (d : Disk) (S W : ℕ → Prop) : Frame b d d S W :=
  ⟨fun _ _ _ => rfl, fun _ _ _ _ => rfl⟩

theorem Frame.trans {d'' : Disk} {S W : ℕ → Prop} (h : Frame b d d' S W)
    (h' : Frame b d' d'' S W) : Frame b d d'' S W where
  fat c hc hS := (h'.fat c hc hS).trans (h.fat c hc hS)
  bytes x hx hS hW := (h'.bytes x hx hS hW).trans (h.bytes x hx hS hW)

theorem Frame.mono {S S' W W' : ℕ → Prop} (h : Frame b d d' S W) (hS : ∀ c, S c → S' c)
    (hW : ∀ x, W x → W' x) : Frame b d d' S' W' where
  fat c hc hc' := h.fat c hc fun hin => hc' (hS c hin)
  bytes x hx hx' hx'' := h.bytes x hx (fun c hc => hx' c (hS c hc)) fun hin => hx'' (hW x hin)

/-! ## Directories and their clusters -/

theorem IsDir.eq_zero_or_owner (h : IsDir b d dir) :
    dir = 0 ∨ ∃ a, Owner b d a ∧ isDirectory (entryAt d a) = true ∧
      firstCluster (entryAt d a) = dir := by
  cases h with
  | root => exact Or.inl rfl
  | child hdir hlive hisDir hdot =>
      exact Or.inr ⟨_, ⟨⟨_, _, hdir, hlive, rfl⟩, hdot⟩, hisDir, rfl⟩

/-- A directory has a chain, the one of a directory entry unless it is empty. -/
theorem Sound.exists_dirChain (hs : Sound b top d first) (h : IsDir b d dir) :
    ∃ l, FileChain b top d dir l ∧ ∀ c ∈ l, ∃ a, Owner b d a ∧
      isDirectory (entryAt d a) = true ∧ FileChain b top d (first a) l := by
  rcases Nat.lt_or_ge dir 2 with hlt | htwo
  · exact ⟨[], (fileChain_of_lt hlt).2 rfl, fun c hc => absurd hc List.not_mem_nil⟩
  · rcases h.eq_zero_or_owner with rfl | ⟨a, howner, hisDir, rfl⟩
    · omega
    · obtain ⟨l, hl⟩ := hs.chain a howner
      have hfirst := hs.onDisk a howner htwo
      exact ⟨l, hfirst ▸ hl, fun c _ => ⟨a, howner, hisDir, hl⟩⟩

/-- A directory's chain has no private cluster. -/
theorem Sound.dirChain_not_private (hb : Geometry b top) (hs : Sound b top d first)
    {S : ℕ → Prop} (hS : Private b top d first S) (h : IsDir b d dir)
    (hl : FileChain b top d dir l) (hc : c ∈ l) : ¬ S c := by
  intro hSc
  obtain ⟨l', hl', hsource⟩ := hs.exists_dirChain h
  obtain rfl := hl.unique hb hl'
  obtain ⟨a, howner, hisDir, hla⟩ := hsource c hc
  rcases (hS c hSc).2 with hfree | ⟨g, m, hg, hfile, hm, hcm⟩
  · exact hl.fatAt_ne_zero hc hfree
  · have hne : a ≠ g := by
      rintro rfl
      rw [hisDir] at hfile
      exact Bool.noConfusion hfile
    exact hs.disjoint a g l m howner hg hne hla hm hc hcm

theorem slotAddr_mod (b : Bpb) (d : Disk) (dir k : ℕ) : slotAddr b d dir k % 32 = 0 := by
  unfold slotAddr
  omega

/-- The place of a directory byte: the root region, or a cluster of the directory's
chain. -/
theorem slot_cases (hb : Geometry b top) (hl : FileChain b top d dir l)
    (hk : HasSlot b d dir k) {i : ℕ} (hi : i < 32) :
    (512 * b.rootDirLba ≤ slotAddr b d dir k + i ∧
        slotAddr b d dir k + i < 512 * b.dataLba) ∨
      ∃ c ∈ l, InCluster b c (slotAddr b d dir k + i) := by
  rcases dirSectorLba_cases hb hl hk with ⟨-, hlba, hlt⟩ | ⟨c, hc, -, hlba⟩
  · left
    rw [slotAddr, hlba, Bpb.dataLba]
    omega
  · refine Or.inr ⟨c, List.mem_of_getElem? hc, ?_⟩
    have hmod := Nat.mod_lt (k / 16) hb.spc_pos
    rw [InCluster, clusterAddr, slotAddr, hlba, Bpb.clusterBytes]
    omega

theorem DirByte.rootAddr_le (hb : Geometry b top) (hs : Sound b top d first) {x : ℕ}
    (h : DirByte b d x) : 512 * b.rootDirLba ≤ x := by
  obtain ⟨dir, k, i, hdir, hk, hi, rfl⟩ := h
  obtain ⟨l, hl, -⟩ := hs.exists_dirChain hdir
  rcases slot_cases hb hl hk hi with ⟨hroot, -⟩ | ⟨c, hc, hin⟩
  · exact hroot
  · have huse := hl.inUse hc
    exact (rootAddr_le_dataAddr b).trans
      (dataAddr_le_of_inCluster huse.1 (huse.lt hb) hin)

/-- No directory byte lies in a private cluster. -/
theorem DirByte.not_inCluster (hb : Geometry b top) (hs : Sound b top d first)
    {S : ℕ → Prop} (hS : Private b top d first S) {x : ℕ} (h : DirByte b d x) (hc : S c) :
    ¬ InCluster b c x := by
  obtain ⟨dir, k, i, hdir, hk, hi, rfl⟩ := h
  intro hin
  obtain ⟨huse, -⟩ := hS c hc
  obtain ⟨l, hl, -⟩ := hs.exists_dirChain hdir
  rcases slot_cases hb hl hk hi with ⟨-, hroot⟩ | ⟨c', hc', hin'⟩
  · have := dataAddr_le_of_inCluster huse.1 (huse.lt hb) hin
    omega
  · have huse' := hl.inUse hc'
    obtain rfl := inCluster_unique huse.1 (huse.lt hb) huse'.1 (huse'.lt hb) hin hin'
    exact hs.dirChain_not_private hb hS hdir hl hc' hc

theorem Geometry.rootDirLba_pos (hb : Geometry b top) : 1 ≤ b.rootDirLba := by
  have := Nat.mul_le_mul hb.fatCount_pos hb.fatSize_pos
  unfold Bpb.rootDirLba
  omega

/-- A slot before an existing one exists. -/
theorem hasSlot_of_le (hb : Geometry b top) (hl : FileChain b top d dir l) {j : ℕ}
    (hk : HasSlot b d dir k) (hjk : j ≤ k) : HasSlot b d dir j := by
  have hroot := hb.rootDirLba_pos
  have hdiv : j / 16 ≤ k / 16 := Nat.div_le_div_right hjk
  rcases dirSectorLba_cases hb hl hk with ⟨rfl, -, hlt⟩ | ⟨c, hc, htwo, -⟩
  · rw [HasSlot, dirSectorLba_root, if_neg (by omega)]
    omega
  · obtain ⟨-, hchain⟩ := (fileChain_of_two_le htwo).1 hl
    have hlen : k / 16 / b.spc < l.length := (List.getElem?_eq_some_iff.1 hc).1
    have hlen' : j / 16 / b.spc < l.length :=
      Nat.lt_of_le_of_lt (Nat.div_le_div_right hdiv) hlen
    have huse := hl.inUse (List.getElem_mem hlen')
    have hdir : dir < 65536 := by
      rcases hl.cases with ⟨hlt, -⟩ | ⟨-, hmem, -⟩
      · omega
      · exact (hl.inUse hmem).lt hb
    have hdata : 1 ≤ b.dataLba := hroot.trans (Nat.le_add_right _ _)
    rw [HasSlot, dirSectorLba_of_chain hb htwo hdir hchain, List.getElem?_eq_getElem hlen',
      Option.map_some, Option.getD_some, b.clusterLba_of_two_le huse.1 (huse.lt hb)]
    omega

/-- Directories with a common cluster are the same. -/
theorem Sound.dir_eq_of_mem (hs : Sound b top d first) {q : ℕ}
    {l' : List ℕ} (hdir : IsDir b d dir) (hq : IsDir b d q) (hl : FileChain b top d dir l)
    (hl' : FileChain b top d q l') (hc : c ∈ l) (hc' : c ∈ l') : dir = q := by
  have htwo : ∀ {p : ℕ} {m : List ℕ}, FileChain b top d p m → c ∈ m → 2 ≤ p := by
    intro p m hm hmem
    rcases hm.cases with ⟨-, rfl⟩ | ⟨h, -⟩
    · cases hmem
    · exact h
  have hsource : ∀ {p : ℕ} {m : List ℕ}, IsDir b d p → FileChain b top d p m → c ∈ m →
      ∃ a, Owner b d a ∧ firstCluster (entryAt d a) = p ∧ first a = p := by
    intro p m hp hm hmem
    rcases hp.eq_zero_or_owner with rfl | ⟨a, ha, -, rfl⟩
    · have := htwo hm hmem
      omega
    · exact ⟨a, ha, rfl, hs.onDisk a ha (htwo hm hmem)⟩
  obtain ⟨a, ha, hfc, hfirst⟩ := hsource hdir hl hc
  obtain ⟨a', ha', hfc', hfirst'⟩ := hsource hq hl' hc'
  by_cases heq : a = a'
  · rw [← hfc, heq, hfc']
  · exact absurd hc' (hs.disjoint a a' l l' ha ha' heq (hfirst ▸ hl) (hfirst' ▸ hl') hc)

/-- A slot belongs to one directory, at one place. -/
theorem slotAddr_inj (hb : Geometry b top) (hs : Sound b top d first) {q j : ℕ}
    (hdir : IsDir b d dir) (hq : IsDir b d q) (hk : HasSlot b d dir k) (hj : HasSlot b d q j)
    (heq : slotAddr b d dir k = slotAddr b d q j) : dir = q ∧ k = j := by
  obtain ⟨l, hl, -⟩ := hs.exists_dirChain hdir
  obtain ⟨l', hl', -⟩ := hs.exists_dirChain hq
  have hk₁ := Nat.mod_lt k (show 16 > 0 by omega)
  have hj₁ := Nat.mod_lt j (show 16 > 0 by omega)
  have hlba : dirSectorLba b d dir (k / 16) = dirSectorLba b d q (j / 16) := by
    unfold slotAddr at heq
    omega
  have hmod : k % 16 = j % 16 := by
    unfold slotAddr at heq
    omega
  have hdata : ∀ {m : List ℕ} {p x : ℕ}, FileChain b top d p m → x ∈ m →
      b.dataLba ≤ b.clusterLba x := by
    intro m p x hm hx
    have huse := hm.inUse hx
    rw [b.clusterLba_of_two_le huse.1 (huse.lt hb)]
    omega
  have hroot : b.rootDirLba + b.rootDirSectors = b.dataLba := rfl
  rcases dirSectorLba_cases hb hl hk with ⟨rfl, h₁, hlt⟩ | ⟨x, hx, htwo, h₁⟩ <;>
    rcases dirSectorLba_cases hb hl' hj with ⟨rfl, h₂, hlt'⟩ | ⟨y, hy, htwo', h₂⟩
  · exact ⟨rfl, by omega⟩
  · have := hdata hl' (List.mem_of_getElem? hy)
    omega
  · have := hdata hl (List.mem_of_getElem? hx)
    omega
  · have hxm := List.mem_of_getElem? hx
    have hym := List.mem_of_getElem? hy
    have hxu := hl.inUse hxm
    have hyu := hl'.inUse hym
    have hxs := Nat.mod_lt (k / 16) hb.spc_pos
    have hys := Nat.mod_lt (j / 16) hb.spc_pos
    have hin : InCluster b x (512 * dirSectorLba b d dir (k / 16)) := by
      rw [InCluster, clusterAddr, Bpb.clusterBytes, h₁]
      omega
    have hin' : InCluster b y (512 * dirSectorLba b d dir (k / 16)) := by
      rw [InCluster, clusterAddr, Bpb.clusterBytes, hlba, h₂]
      omega
    obtain rfl := inCluster_unique hxu.1 (hxu.lt hb) hyu.1 (hyu.lt hb) hin hin'
    obtain rfl := hs.dir_eq_of_mem hdir hq hl hl' hxm hym
    obtain rfl := hl.unique hb hl'
    have hnodup := (hl.clusterChain htwo).nodup fun _ => InUse.not_endMark hb
    obtain ⟨hxlt, hxget⟩ := List.getElem?_eq_some_iff.1 hx
    obtain ⟨hylt, hyget⟩ := List.getElem?_eq_some_iff.1 hy
    have hidx := hnodup.getElem_inj_iff.1 (hxget.trans hyget.symm)
    have hoff : k / 16 % b.spc = j / 16 % b.spc := by omega
    have hk₂ := Nat.div_add_mod (k / 16) b.spc
    have hj₂ := Nat.div_add_mod (j / 16) b.spc
    rw [hidx, hoff, hj₂] at hk₂
    exact ⟨rfl, by omega⟩

/-! ## What a frame keeps of the directories -/

theorem dirSectorLba_congr (hb : Geometry b top) (hl : FileChain b top d dir l)
    (hfat : ∀ x ∈ l, fatAt b d' x = fatAt b d x) (n : ℕ) :
    dirSectorLba b d' dir n = dirSectorLba b d dir n := by
  rcases hl.cases with ⟨hlt, -⟩ | ⟨hle, hmem, hchain⟩
  · rcases Nat.lt_or_ge dir 1 with hzero | hone
    · obtain rfl : dir = 0 := by omega
      rw [dirSectorLba_root, dirSectorLba_root]
    · obtain rfl : dir = 1 := by omega
      rw [dirSectorLba_one, dirSectorLba_one]
  · have hlt := (hchain.inside_of_mem hmem).lt hb
    rw [dirSectorLba_of_chain hb hle hlt hchain,
      dirSectorLba_of_chain hb hle hlt (hchain.congr hfat)]

theorem Frame.dirSectorLba_eq (hb : Geometry b top) (hs : Sound b top d first)
    {S W : ℕ → Prop} (hS : Private b top d first S) (hframe : Frame b d d' S W)
    (h : IsDir b d dir) (n : ℕ) : dirSectorLba b d' dir n = dirSectorLba b d dir n := by
  obtain ⟨l, hl, -⟩ := hs.exists_dirChain h
  refine dirSectorLba_congr hb hl (fun x hx => ?_) n
  exact hframe.fat x ((hl.inUse hx).lt_table hb) (hs.dirChain_not_private hb hS h hl hx)

theorem Frame.dirByte_eq (hb : Geometry b top) (hs : Sound b top d first)
    {S W : ℕ → Prop} (hS : Private b top d first S) (hframe : Frame b d d' S W) {x : ℕ}
    (h : DirByte b d x) (hW : ¬ W x) : d' x = d x :=
  hframe.bytes x (h.rootAddr_le hb hs) (fun _ hc => h.not_inCluster hb hs hS hc) hW

/-! ## Updating the entry of a file -/

/-- The directories of `d'` are those of `d`, slot by slot, except that first cluster
and size of the file in slot `f` may differ. -/
structure SameTree (b : Bpb) (d d' : Disk) (f : ℕ) : Prop where
  sectors : ∀ dir, IsDir b d dir → ∀ n, dirSectorLba b d' dir n = dirSectorLba b d dir n
  head : ∀ dir k, IsDir b d dir → HasSlot b d dir k → ∀ x < 26,
    d' (slotAddr b d dir k + x) = d (slotAddr b d dir k + x)
  other : ∀ dir k, IsDir b d dir → HasSlot b d dir k → slotAddr b d dir k ≠ f → ∀ x < 32,
    d' (slotAddr b d dir k + x) = d (slotAddr b d dir k + x)
  file : ∀ dir k, IsDir b d dir → HasSlot b d dir k → slotAddr b d dir k = f →
    isDirectory (entryAt d f) = false

theorem attributes_congr {e e' : Bytes} (h : ∀ x < 26, e' x = e x) :
    attributes e' = attributes e := h 11 (by omega)

theorem isDirectory_congr {e e' : Bytes} (h : ∀ x < 26, e' x = e x) :
    isDirectory e' = isDirectory e := by
  rw [isDirectory, isDirectory, attributes_congr h]

theorem skipEntry_congr {e e' : Bytes} (h : ∀ x < 26, e' x = e x) :
    skipEntry e' = skipEntry e := by
  rw [skipEntry, skipEntry, attributes_congr h, h 0 (by omega)]

theorem isVolumeId_congr {e e' : Bytes} (h : ∀ x < 26, e' x = e x) :
    isVolumeId e' = isVolumeId e := by
  rw [isVolumeId, isVolumeId, attributes_congr h]

theorem format83_congr {e e' : Bytes} (h : ∀ x < 26, e' x = e x) : format83 e' = format83 e := by
  have hname : (List.range 8).map e' = (List.range 8).map e :=
    List.map_congr_left fun x hx => h x (by have := List.mem_range.1 hx; omega)
  have hext : (List.range 3).map (fun k => e' (8 + k)) = (List.range 3).map fun k => e (8 + k) :=
    List.map_congr_left fun x hx => h (8 + x) (by have := List.mem_range.1 hx; omega)
  rw [format83, format83, hname, hext, h 8 (by omega)]

theorem visible_congr {e e' : Bytes} (h : ∀ x < 26, e' x = e x) : Visible e' ↔ Visible e := by
  rw [Visible, Visible, skipEntry_congr h, isVolumeId_congr h]

theorem isDot_congr {e e' : Bytes} (h : ∀ x < 26, e' x = e x) : isDot e' = isDot e := by
  have hraw : rawName e' = rawName e :=
    List.map_congr_left fun x hx => h x (by have := List.mem_range.1 hx; omega)
  rw [isDot, isDot, isDirectory_congr h, hraw]

theorem firstCluster_congr {e e' : Bytes} (h : ∀ x < 32, e' x = e x) :
    firstCluster e' = firstCluster e :=
  load16_congr fun x _ hx => h x (by omega)

theorem fileSize_congr {e e' : Bytes} (h : ∀ x < 32, e' x = e x) : fileSize e' = fileSize e :=
  load32_congr fun x _ hx => h x (by omega)

namespace SameTree

theorem slotAddr_eq (h : SameTree b d d' f) (hdir : IsDir b d dir) (k : ℕ) :
    slotAddr b d' dir k = slotAddr b d dir k := by
  rw [slotAddr, slotAddr, h.sectors dir hdir]

theorem hasSlot_iff (h : SameTree b d d' f) (hdir : IsDir b d dir) :
    HasSlot b d' dir k ↔ HasSlot b d dir k := by
  rw [HasSlot, HasSlot, h.sectors dir hdir]

/-- Byte `x` of a slot, read on the two disks. -/
theorem entry_head (h : SameTree b d d' f) (hdir : IsDir b d dir) (hk : HasSlot b d dir k) :
    ∀ x < 26, entryAt d' (slotAddr b d dir k) x = entryAt d (slotAddr b d dir k) x :=
  h.head dir k hdir hk

theorem liveSlot_iff (hb : Geometry b top) (hs : Sound b top d first) (h : SameTree b d d' f)
    (hdir : IsDir b d dir) : LiveSlot b d' dir k ↔ LiveSlot b d dir k := by
  obtain ⟨l, hl, -⟩ := hs.exists_dirChain hdir
  have hbyte : ∀ j, HasSlot b d dir j →
      d' (slotAddr b d' dir j) = d (slotAddr b d dir j) := fun j hj => by
    rw [h.slotAddr_eq hdir]
    exact h.head dir j hdir hj 0 (by omega)
  constructor
  · rintro ⟨hhas, hbefore, hvisible⟩
    have hhas' := (h.hasSlot_iff hdir).1 hhas
    refine ⟨hhas', fun j hj => ?_, ?_⟩
    · rw [← hbyte j (hasSlot_of_le hb hl hhas' (Nat.le_of_lt hj))]
      exact hbefore j hj
    · rw [h.slotAddr_eq hdir, visible_congr (h.entry_head hdir hhas')] at hvisible
      exact hvisible
  · rintro ⟨hhas, hbefore, hvisible⟩
    refine ⟨(h.hasSlot_iff hdir).2 hhas, fun j hj => ?_, ?_⟩
    · rw [hbyte j (hasSlot_of_le hb hl hhas (Nat.le_of_lt hj))]
      exact hbefore j hj
    · rw [h.slotAddr_eq hdir, visible_congr (h.entry_head hdir hhas)]
      exact hvisible

/-- A directory's entry is not the one that was updated. -/
theorem entry_dir (h : SameTree b d d' f) (hdir : IsDir b d dir) (hk : HasSlot b d dir k)
    (hisDir : isDirectory (entryAt d (slotAddr b d dir k)) = true) :
    ∀ x < 32, entryAt d' (slotAddr b d dir k) x = entryAt d (slotAddr b d dir k) x := by
  refine h.other dir k hdir hk fun heq => ?_
  have hfile := h.file dir k hdir hk heq
  rw [heq, hfile] at hisDir
  exact Bool.noConfusion hisDir

theorem isDir_iff (hb : Geometry b top) (hs : Sound b top d first) (h : SameTree b d d' f) :
    IsDir b d' dir ↔ IsDir b d dir := by
  constructor
  · intro hdir
    induction hdir with
    | root => exact IsDir.root
    | @child dir k _ hlive hisDir hdot ih =>
        have hlive' := (h.liveSlot_iff hb hs ih).1 hlive
        have hhead := h.entry_head ih hlive'.has
        rw [h.slotAddr_eq ih] at hisDir hdot ⊢
        rw [isDirectory_congr hhead] at hisDir
        rw [isDot_congr hhead] at hdot
        rw [firstCluster_congr (h.entry_dir ih hlive'.has hisDir)]
        exact IsDir.child ih hlive' hisDir hdot
  · intro hdir
    induction hdir with
    | root => exact IsDir.root
    | @child dir k hdir₀ hlive hisDir hdot ih =>
        have hhead := h.entry_head hdir₀ hlive.has
        have hfirst := firstCluster_congr (h.entry_dir hdir₀ hlive.has hisDir)
        rw [← isDirectory_congr hhead, ← h.slotAddr_eq hdir₀] at hisDir
        rw [← isDot_congr hhead, ← h.slotAddr_eq hdir₀] at hdot
        rw [← hfirst, ← h.slotAddr_eq hdir₀]
        exact IsDir.child ih ((h.liveSlot_iff hb hs hdir₀).2 hlive) hisDir hdot

theorem liveEntry_iff (hb : Geometry b top) (hs : Sound b top d first) (h : SameTree b d d' f) :
    LiveEntry b d' a ↔ LiveEntry b d a := by
  constructor
  · rintro ⟨dir, k, hdir, hlive, rfl⟩
    have hdir' := (h.isDir_iff hb hs).1 hdir
    exact ⟨dir, k, hdir', (h.liveSlot_iff hb hs hdir').1 hlive, (h.slotAddr_eq hdir' k).symm⟩
  · rintro ⟨dir, k, hdir, hlive, rfl⟩
    exact ⟨dir, k, (h.isDir_iff hb hs).2 hdir, (h.liveSlot_iff hb hs hdir).2 hlive,
      h.slotAddr_eq hdir k⟩

theorem liveEntry_head (h : SameTree b d d' f) (ha : LiveEntry b d a) :
    ∀ x < 26, entryAt d' a x = entryAt d a x := by
  obtain ⟨dir, k, hdir, hlive, rfl⟩ := ha
  exact h.entry_head hdir hlive.has

/-- All other entries are the same. -/
theorem liveEntry_other (h : SameTree b d d' f) (ha : LiveEntry b d a) (hne : a ≠ f) :
    ∀ x < 32, entryAt d' a x = entryAt d a x := by
  obtain ⟨dir, k, hdir, hlive, rfl⟩ := ha
  exact h.other dir k hdir hlive.has hne

theorem owner_iff (hb : Geometry b top) (hs : Sound b top d first) (h : SameTree b d d' f) :
    Owner b d' a ↔ Owner b d a := by
  constructor
  · rintro ⟨hlive, hdot⟩
    have hlive' := (h.liveEntry_iff hb hs).1 hlive
    rw [isDot_congr (h.liveEntry_head hlive')] at hdot
    exact ⟨hlive', hdot⟩
  · rintro ⟨hlive, hdot⟩
    rw [← isDot_congr (h.liveEntry_head hlive)] at hdot
    exact ⟨(h.liveEntry_iff hb hs).2 hlive, hdot⟩

theorem zeroTail (hb : Geometry b top) (hs : Sound b top d first)
    (h : SameTree b d d' f) (hzero : ZeroTail b d) : ZeroTail b d' := by
  intro q j i hq hji hi hj
  have hq := (h.isDir_iff hb hs).1 hq
  obtain ⟨m, hm, -⟩ := hs.exists_dirChain hq
  have hi := (h.hasSlot_iff hq).1 hi
  have hj' := hasSlot_of_le hb hm hi (Nat.le_of_lt hji)
  rw [h.slotAddr_eq hq] at hj ⊢
  have hjbyte := h.head q j hq hj' 0 (by omega)
  have hibyte := h.head q i hq hi 0 (by omega)
  rw [Nat.add_zero] at hjbyte hibyte
  rw [hibyte]
  exact hzero q j i hq hji hi (hjbyte.symm.trans hj)

end SameTree

/-- An operation on private clusters and on first cluster and size of a file's slot
keeps the directories. -/
theorem Frame.sameTree (hb : Geometry b top) (hs : Sound b top d first) {S W : ℕ → Prop}
    (hS : Private b top d first S) (hframe : Frame b d d' S W)
    (hW : ∀ x, W x → f + 26 ≤ x ∧ x < f + 32) (hf : f % 32 = 0)
    (hfile : isDirectory (entryAt d f) = false) : SameTree b d d' f where
  sectors dir hdir := hframe.dirSectorLba_eq hb hs hS hdir
  head dir k hdir hk x hx := by
    refine hframe.dirByte_eq hb hs hS ⟨dir, k, x, hdir, hk, by omega, rfl⟩ fun hin => ?_
    have := slotAddr_mod b d dir k
    have := hW _ hin
    omega
  other dir k hdir hk hne x hx := by
    refine hframe.dirByte_eq hb hs hS ⟨dir, k, x, hdir, hk, hx, rfl⟩ fun hin => ?_
    have := slotAddr_mod b d dir k
    have := hW _ hin
    omega
  file _ _ _ _ _ := hfile

/-- An operation on private clusters alone: no slot is at address 1. -/
theorem Frame.sameTree_of_clean (hb : Geometry b top) (hs : Sound b top d first)
    {S : ℕ → Prop} (hS : Private b top d first S) (hframe : Frame b d d' S fun _ => False) :
    SameTree b d d' 1 where
  sectors dir hdir := hframe.dirSectorLba_eq hb hs hS hdir
  head dir k hdir hk x hx :=
    hframe.dirByte_eq hb hs hS ⟨dir, k, x, hdir, hk, by omega, rfl⟩ id
  other dir k hdir hk _ x hx :=
    hframe.dirByte_eq hb hs hS ⟨dir, k, x, hdir, hk, hx, rfl⟩ id
  file dir k _ _ heq := by
    have := slotAddr_mod b d dir k
    omega

end Fat16

end Yotos
