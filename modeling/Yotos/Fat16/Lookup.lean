import Yotos.Fat16.Contents

/-!
# Looking a name up and finding a free slot

`fat16_vfs_finddir` returns the first live entry whose name matches, and
`fat16_write_dir_entry` fills the first free slot.
-/

namespace Yotos

namespace Fat16

open Bytes Kheap Library

variable {b : Bpb} {top : ℕ} {d : Disk} {dir k fuel : ℕ} {l : List ℕ} {name : List UInt8}

instance (e : Bytes) : Decidable (Visible e) :=
  inferInstanceAs (Decidable (skipEntry e = 0 ∧ isVolumeId e = false))

/-- A slot that `fat16_write_dir_entry` fills. -/
def IsFree (e : Bytes) : Prop := e 0 = 0x00 ∨ e 0 = 0xE5

instance (e : Bytes) : Decidable (IsFree e) :=
  inferInstanceAs (Decidable (e 0 = 0x00 ∨ e 0 = 0xE5))

/-- The first free slot of a directory. -/
structure FirstFree (b : Bpb) (d : Disk) (dir k : ℕ) : Prop where
  has : HasSlot b d dir k
  free : IsFree (entryAt d (slotAddr b d dir k))
  first : ∀ j < k, ¬ IsFree (entryAt d (slotAddr b d dir j))

theorem skipEntry_eq_two {e : Bytes} : skipEntry e = 2 ↔ e 0 = 0 := by
  unfold skipEntry
  split_ifs with h <;> simp [h]

theorem Visible.first_ne_zero {e : Bytes} (h : Visible e) : e 0 ≠ 0 := by
  intro hzero
  have hskip := h.1
  rw [skipEntry_eq_two.2 hzero] at hskip
  omega

theorem Visible.not_isFree {e : Bytes} (h : Visible e) : ¬ IsFree e := by
  have hskip := h.1
  unfold skipEntry at hskip
  split_ifs at hskip with hzero hdel hlfn
  exact fun hfree => hfree.elim hzero hdel

theorem finddirVisit_eq (name : List UInt8) (lba i : ℕ) (e : Bytes) :
    finddirVisit name lba i e () =
      if e 0 = 0 then .done none
      else if Visible e ∧ nameMatch e name = true then .done (some (e, lba, i))
      else .next () := by
  unfold finddirVisit
  by_cases hzero : e 0 = 0
  · rw [if_pos (skipEntry_eq_two.2 hzero), if_pos hzero]
  · have htwo : skipEntry e ≠ 2 := fun h => hzero (skipEntry_eq_two.1 h)
    rw [if_neg htwo, if_neg hzero]
    by_cases hskip : skipEntry e = 1
    · rw [if_pos hskip, if_neg]
      rintro ⟨hvisible, -⟩
      rw [hvisible.1] at hskip
      omega
    · have hskip' : skipEntry e = 0 := by
        unfold skipEntry at htwo hskip ⊢
        split_ifs at htwo hskip ⊢ <;> omega
      rw [if_neg hskip]
      by_cases hvol : isVolumeId e = true
      · rw [if_pos hvol, if_neg]
        rintro ⟨hvisible, -⟩
        rw [hvisible.2] at hvol
        exact Bool.noConfusion hvol
      · rw [if_neg hvol]
        have hvisible : Visible e := ⟨hskip', Bool.eq_false_iff.2 hvol⟩
        by_cases hmatch : nameMatch e name = true
        · rw [if_pos hmatch, if_pos ⟨hvisible, hmatch⟩]
        · rw [if_neg hmatch, if_neg fun h => hmatch h.2]

theorem freeSlotVisit_eq (lba i : ℕ) (e : Bytes) :
    freeSlotVisit lba i e () = if IsFree e then .done (some (lba, i)) else .next () := by
  unfold freeSlotVisit IsFree
  rfl

/-- The lookup found the first live entry that matches. -/
theorem finddir_some (hb : Geometry b top) (hl : FileChain b top d dir l) {e : Bytes}
    {lba i : ℕ}
    (h : scanDir b d dir (finddirVisit name) fuel 0 () = some (some (e, lba, i))) :
    ∃ k, LiveSlot b d dir k ∧ nameMatch (entryAt d (slotAddr b d dir k)) name = true ∧
      e = entryAt d (slotAddr b d dir k) ∧ lba = dirSectorLba b d dir (k / 16) ∧
      i = k % 16 ∧ ∀ j < k, LiveSlot b d dir j →
        nameMatch (entryAt d (slotAddr b d dir j)) name = false := by
  rcases scanDir_result_of_chain hb hl h with ⟨k, -, hsectors, hdone, hbefore⟩ | ⟨hnone, -⟩
  swap
  · cases hnone
  rw [slotVisit, finddirVisit_eq] at hdone
  split_ifs at hdone with hzero hmatch
  · cases hdone
  · simp only [Visit.done.injEq, Option.some.injEq, Prod.mk.injEq] at hdone
    obtain ⟨rfl, rfl, rfl⟩ := hdone
    refine ⟨k, ⟨hsectors _ (Nat.zero_le _) le_rfl, fun j hj => ?_, hmatch.1⟩, hmatch.2, rfl, rfl,
      rfl, fun j hj hlive => ?_⟩
    · have hnext := hbefore j (Nat.zero_le _) hj
      rw [slotVisit, finddirVisit_eq] at hnext
      split_ifs at hnext with hzero'
      exact hzero'
    · have hnext := hbefore j (Nat.zero_le _) hj
      rw [slotVisit, finddirVisit_eq, if_neg hlive.visible.first_ne_zero] at hnext
      split_ifs at hnext with hmatch'
      exact Bool.eq_false_iff.2 fun htrue => hmatch' ⟨hlive.visible, htrue⟩

/-- The lookup found nothing: no live entry matches. -/
theorem finddir_none (hb : Geometry b top) (hl : FileChain b top d dir l)
    (h : scanDir b d dir (finddirVisit name) fuel 0 () = some none)
    (hlive : LiveSlot b d dir k) : nameMatch (entryAt d (slotAddr b d dir k)) name = false := by
  have hnext : ∀ j, slotVisit b d dir (finddirVisit name) j () = .next () → j = k →
      nameMatch (entryAt d (slotAddr b d dir k)) name = false := by
    rintro j hj rfl
    rw [slotVisit, finddirVisit_eq, if_neg hlive.visible.first_ne_zero] at hj
    split_ifs at hj with hmatch
    exact Bool.eq_false_iff.2 fun htrue => hmatch ⟨hlive.visible, htrue⟩
  rcases scanDir_result_of_chain hb hl h with ⟨e, -, -, hdone, hbefore⟩ | ⟨-, e, -, hend, -, hbefore⟩
  · rw [slotVisit, finddirVisit_eq] at hdone
    split_ifs at hdone with hzero hmatch
    · have hlt : k < e := by
        rcases Nat.lt_trichotomy k e with hlt | rfl | hgt
        · exact hlt
        · exact absurd hzero hlive.visible.first_ne_zero
        · exact absurd hzero (hlive.before e hgt)
      exact hnext k (hbefore k (Nat.zero_le _) hlt) rfl
    · cases hdone
  · rcases Nat.lt_or_ge k (16 * e) with hlt | hge
    · exact hnext k (hbefore k (Nat.zero_le _) hlt) rfl
    · have hhas := hasSlot_of_le hb hl hlive.has hge
      rw [HasSlot, Nat.mul_div_cancel_left e (by omega)] at hhas
      exact absurd hend hhas

theorem freeSlot_some (hb : Geometry b top) (hl : FileChain b top d dir l) {lba i : ℕ}
    (h : scanDir b d dir freeSlotVisit fuel 0 () = some (some (lba, i))) :
    ∃ k, FirstFree b d dir k ∧ lba = dirSectorLba b d dir (k / 16) ∧ i = k % 16 := by
  rcases scanDir_result_of_chain hb hl h with ⟨k, -, hsectors, hdone, hbefore⟩ | ⟨hnone, -⟩
  swap
  · cases hnone
  rw [slotVisit, freeSlotVisit_eq] at hdone
  split_ifs at hdone with hfree
  simp only [Visit.done.injEq, Option.some.injEq, Prod.mk.injEq] at hdone
  obtain ⟨rfl, rfl⟩ := hdone
  refine ⟨k, ⟨hsectors _ (Nat.zero_le _) le_rfl, hfree, fun j hj => ?_⟩, rfl, rfl⟩
  have hnext := hbefore j (Nat.zero_le _) hj
  rw [slotVisit, freeSlotVisit_eq] at hnext
  split_ifs at hnext with hfree'
  exact hfree'

theorem freeSlot_none (hb : Geometry b top) (hl : FileChain b top d dir l)
    (h : scanDir b d dir freeSlotVisit fuel 0 () = some none) (hk : HasSlot b d dir k) :
    ¬ IsFree (entryAt d (slotAddr b d dir k)) := by
  rcases scanDir_result_of_chain hb hl h with ⟨e, -, -, hdone, -⟩ | ⟨-, e, -, hend, -, hbefore⟩
  · rw [slotVisit, freeSlotVisit_eq] at hdone
    split_ifs at hdone
    cases hdone
  · rcases Nat.lt_or_ge k (16 * e) with hlt | hge
    · have hnext := hbefore k (Nat.zero_le _) hlt
      rw [slotVisit, freeSlotVisit_eq] at hnext
      split_ifs at hnext with hfree
      exact hfree
    · have hhas := hasSlot_of_le hb hl hk hge
      rw [HasSlot, Nat.mul_div_cancel_left e (by omega)] at hhas
      exact absurd hend hhas

theorem FirstFree.unique {j : ℕ} (h : FirstFree b d dir k) (h' : FirstFree b d dir j) : k = j := by
  rcases Nat.lt_trichotomy k j with hlt | heq | hgt
  · exact absurd h.free (h'.first k hlt)
  · exact heq
  · exact absurd h'.free (h.first j hgt)

/-! ## The functions -/

/-- A node from a successful lookup decodes a live entry of the directory. -/
theorem fat16VfsFinddir_some {fs fs' : Fs} {node found : VfsNode} (hb : Geometry fs.bpb top)
    (hl : FileChain fs.bpb top fs.disk node.inode l)
    (h : fat16VfsFinddir fuel node name fs = some (some found, fs')) :
    ∃ k addr, LiveSlot fs.bpb fs.disk node.inode k ∧
      nameMatch (entryAt fs.disk (slotAddr fs.bpb fs.disk node.inode k)) name = true ∧
      found = nodeOf (entryAt fs.disk (slotAddr fs.bpb fs.disk node.inode k))
        (dirSectorLba fs.bpb fs.disk node.inode (k / 16)) (k % 16) addr ∧
      (∀ j < k, LiveSlot fs.bpb fs.disk node.inode j →
        nameMatch (entryAt fs.disk (slotAddr fs.bpb fs.disk node.inode j)) name = false) ∧
      fs'.disk = fs.disk ∧ fs'.bpb = fs.bpb ∧ fs'.mounted = fs.mounted := by
  unfold fat16VfsFinddir at h
  split_ifs at h
  · obtain ⟨r, hscan, h⟩ := Option.bind_eq_some_iff.1 h
    rcases r with _ | ⟨e, lba, i⟩
    · simp at h
    · obtain ⟨⟨addr, heap⟩, -, h⟩ := Option.map_eq_some_iff.1 h
      dsimp only at h
      split_ifs at h with haddr
      · simp at h
      · simp only [Prod.mk.injEq, Option.some.injEq] at h
        obtain ⟨rfl, rfl⟩ := h
        obtain ⟨k, hlive, hmatch, rfl, rfl, rfl, hfirst⟩ := finddir_some hb hl hscan
        exact ⟨k, addr, hlive, hmatch, rfl, hfirst, rfl, rfl, rfl⟩
  · simp at h

/-- The lookup leaves the disk alone. -/
theorem fat16VfsFinddir_disk {fs fs' : Fs} {node : VfsNode} {r : Option VfsNode}
    (h : fat16VfsFinddir fuel node name fs = some (r, fs')) :
    fs'.disk = fs.disk ∧ fs'.bpb = fs.bpb ∧ fs'.mounted = fs.mounted := by
  unfold fat16VfsFinddir at h
  split_ifs at h
  · obtain ⟨r', -, h⟩ := Option.bind_eq_some_iff.1 h
    rcases r' with _ | ⟨e, lba, i⟩
    · simp only [Option.some.injEq, Prod.mk.injEq] at h
      obtain ⟨-, rfl⟩ := h
      exact ⟨rfl, rfl, rfl⟩
    · obtain ⟨⟨addr, heap⟩, -, h⟩ := Option.map_eq_some_iff.1 h
      dsimp only at h
      split_ifs at h <;>
      · simp only [Prod.mk.injEq] at h
        obtain ⟨-, rfl⟩ := h
        exact ⟨rfl, rfl, rfl⟩
  · simp only [Option.some.injEq, Prod.mk.injEq] at h
    obtain ⟨-, rfl⟩ := h
    exact ⟨rfl, rfl, rfl⟩

/-- A file node that `fat16_vfs_finddir` returns agrees with a live entry. -/
theorem fat16VfsFinddir_fileNode {fs fs' : Fs} {node found : VfsNode}
    (hb : Geometry fs.bpb top) (hl : FileChain fs.bpb top fs.disk node.inode l)
    (hdir : IsDir fs.bpb fs.disk node.inode)
    (h : fat16VfsFinddir fuel node name fs = some (some found, fs'))
    (hfile : found.flags = vfsFile) : ∃ f, FileNode fs'.bpb fs'.disk found f := by
  obtain ⟨k, addr, hlive, -, rfl, -, hdisk, hbpb, -⟩ := fat16VfsFinddir_some hb hl h
  rw [hdisk, hbpb]
  refine ⟨_, fileNode_nodeOf hb.spc_pos hdir hlive ?_ addr⟩
  rw [Bool.eq_false_iff]
  intro hisDir
  simp [nodeOf, hisDir, vfsFile, vfsDir] at hfile

/-- A sector in which one slot was filled is written back. -/
theorem writeSector_slot (d : Disk) (e : Bytes) {lba i : ℕ} (hlba : lba < 2 ^ 28) (hi : i < 16) :
    writeSector d lba (copy (readSector d lba) (32 * i) e 0 32) =
      copy d (512 * lba + 32 * i) e 0 32 := by
  refine writeSector_patch _ _ _ hlba (fun x hx => ?_) fun a ha => ?_
  · by_cases hin : 32 * i ≤ x ∧ x < 32 * i + 32
    · rw [copy_of_mem _ _ hin, copy_of_mem _ _ (by omega)]
      refine congrArg _ ?_
      omega
    · rw [copy_of_apart _ _ _ (by omega), copy_of_apart _ _ _ (by omega),
        readSector_apply d hlba]
  · rw [copy_of_apart _ _ _ (by omega)]

/-- What `fat16_write_dir_entry` does: nothing, or the first free slot gets the entry. -/
theorem fat16WriteDirEntry_cases (hb : Geometry b top) (hl : FileChain b top d dir l)
    {first size : ℕ} {attr : UInt8} {ok : Bool} {d' : Disk}
    (h : fat16WriteDirEntry fuel b d dir name first size attr = some (ok, d')) :
    (ok = false ∧ d' = d ∧ (formatName83 name = none ∨
        ∀ k, HasSlot b d dir k → ¬ IsFree (entryAt d (slotAddr b d dir k)))) ∨
      ∃ name83 ext83 k, ok = true ∧ formatName83 name = some (name83, ext83) ∧
        FirstFree b d dir k ∧
        d' = copy d (slotAddr b d dir k) (newEntry name83 ext83 first size attr) 0 32 := by
  unfold fat16WriteDirEntry at h
  cases hname : formatName83 name with
  | none =>
      rw [hname] at h
      simp only [Option.some.injEq, Prod.mk.injEq] at h
      obtain ⟨rfl, rfl⟩ := h
      exact Or.inl ⟨rfl, rfl, Or.inl rfl⟩
  | some p =>
      obtain ⟨name83, ext83⟩ := p
      rw [hname] at h
      obtain ⟨r, hscan, h⟩ := Option.map_eq_some_iff.1 h
      rcases r with _ | ⟨lba, i⟩
      · simp only [Prod.mk.injEq] at h
        obtain ⟨rfl, rfl⟩ := h
        exact Or.inl ⟨rfl, rfl, Or.inr fun k hk => freeSlot_none hb hl hscan hk⟩
      · simp only [Prod.mk.injEq] at h
        obtain ⟨rfl, rfl⟩ := h
        obtain ⟨k, hfree, rfl, rfl⟩ := freeSlot_some hb hl hscan
        refine Or.inr ⟨name83, ext83, k, rfl, rfl, hfree, ?_⟩
        have hlba := dirSectorLba_lt hb.spc_pos d dir (k / 16)
        have hmod := Nat.mod_lt k (show 16 > 0 by omega)
        exact writeSector_slot d _ hlba hmod

end Fat16

end Yotos
