import Yotos.Fat16.Create

/-!
# When a failed creation leaves nothing behind

`fat16_vfs_create` ends with a lookup of the name it has just written. When that
fails, the entry and the cluster stay. So a reported failure is clean exactly when the
call failed before it wrote, or the lookup cannot fail, or nothing visible was
written.
-/

namespace Yotos

namespace Fat16

open Bytes Kheap Library

variable {b : Bpb} {top : ℕ} {d d' : Disk} {first : ℕ → ℕ} {c dir k fuel : ℕ} {l : List ℕ}
  {name : List UInt8} {name83 ext83 : Bytes} {flags : UInt32}

/-- Every table entry and every slot of every directory is as before. -/
structure Unchanged (b : Bpb) (d d' : Disk) : Prop where
  table : ∀ k < 256 * b.fatSize, fatAt b d' k = fatAt b d k
  slots : ∀ q j, IsDir b d q → HasSlot b d q j → slotAddr b d' q j = slotAddr b d q j ∧
    ∀ x < 32, entryAt d' (slotAddr b d q j) x = entryAt d (slotAddr b d q j) x

/-- `kmalloc` has room for a node. -/
def NodeRoom (fs : Fs) : Prop :=
  ∃ p heap, kmalloc fs.heapStart vfsNodeSize fs.heap = some (p, heap) ∧ p ≠ 0

/-- The lookup after the creation finds an entry: the new one reads back as the name
and does not look deleted, or an entry of that name was there before. -/
def LookupFinds (b : Bpb) (d : Disk) (dir : ℕ) (name : List UInt8) (flags : UInt32) : Prop :=
  (∃ name83 ext83, formatName83 name = some (name83, ext83) ∧ name83 0 ≠ 0xE5 ∧
      nameMatch (createdEntry name83 ext83 0 flags) name = true) ∨
    ∃ k, LiveSlot b d dir k ∧ nameMatch (entryAt d (slotAddr b d dir k)) name = true

/-- A file's entry that the first free slot holds already, as a deleted one. -/
def SlotKept (b : Bpb) (d : Disk) (dir : ℕ) (name : List UInt8) (flags : UInt32) : Prop :=
  flags &&& vfsDir = 0 ∧ ∃ name83 ext83 k, formatName83 name = some (name83, ext83) ∧
    FirstFree b d dir k ∧ ∀ x < 32,
      entryAt d (slotAddr b d dir k) x = createdEntry name83 ext83 0 flags x

/-- A failure of the call is clean. -/
def FailsClean (fs : Fs) (dir : ℕ) (name : List UInt8) (flags : UInt32) : Prop :=
  NotCreated fs.bpb fs.disk dir name flags ∨
    (NodeRoom fs ∧ LookupFinds fs.bpb fs.disk dir name flags) ∨
    SlotKept fs.bpb fs.disk dir name flags

theorem Unharmed.unchanged (hb : Geometry b top) (hs : Sound b top d first)
    (h : Unharmed b top d d') : Unchanged b d d' where
  table := h.table
  slots _ j hq hj := ⟨(h.sameTree hb hs).slotAddr_eq hq j, fun _ hx => (h.slot_eq hb hs hq hj hx).2⟩

/-- The name fields of the new entry do not depend on its cluster. -/
theorem createdEntry_head (name83 ext83 : Bytes) (c c' : ℕ) (flags : UInt32) :
    ∀ x < 26, createdEntry name83 ext83 c flags x = createdEntry name83 ext83 c' flags x := by
  intro x hx
  rw [createdEntry, createdEntry, newEntry_of_lt _ _ _ _ _ hx, newEntry_of_lt _ _ _ _ _ hx]

theorem nameMatch_congr {e e' : Bytes} (h : ∀ x < 26, e' x = e x) :
    nameMatch e' name = nameMatch e name := by
  rw [nameMatch, nameMatch, format83_congr h]

theorem visible_createdEntry (hzero : name83 0 ≠ 0) (c : ℕ) (flags : UInt32) :
    Visible (createdEntry name83 ext83 c flags) ↔ name83 0 ≠ 0xE5 := by
  have hfirst : createdEntry name83 ext83 c flags 0 = name83 0 := newEntry_zero ..
  have hattr : attributes (createdEntry name83 ext83 c flags) =
      if flags &&& vfsDir ≠ 0 then 0x10 else 0x20 := attributes_newEntry ..
  rw [Visible, skipEntry, isVolumeId, hfirst, hattr, if_neg hzero]
  by_cases hdel : name83 0 = 0xE5
  · simp [hdel]
  · by_cases hflag : flags &&& vfsDir ≠ 0
    · simp only [if_neg hdel, if_pos hflag]
      exact iff_of_true ⟨rfl, rfl⟩ hdel
    · simp only [if_neg hdel, if_neg hflag]
      exact iff_of_true ⟨rfl, rfl⟩ hdel

namespace Created

/-- The new entry is live unless it looks deleted. -/
theorem live_new (hb : Geometry b top) (hs : Sound b top d first) (hdir : IsDir b d dir)
    (h : Created b top d dir k (createdEntry name83 ext83 c flags) l d')
    (hdel : name83 0 ≠ 0xE5) : LiveSlot b d' dir k := by
  obtain ⟨m, hm, -⟩ := hs.exists_dirChain hdir
  have hzero : name83 0 ≠ 0 := by
    have := h.named
    rwa [createdEntry, newEntry_zero] at this
  refine ⟨(h.hasSlot_iff hb hs hdir).2 h.slot.has, fun j hj => ?_, ?_⟩
  · rw [h.slotAddr_eq hb hs hdir]
    have hhas := hasSlot_of_le hb hm h.slot.has (Nat.le_of_lt hj)
    exact h.byte_zero hb hs hdir hhas fun hz => h.slot.first j hj (Or.inl hz)
  · rw [h.slotAddr_eq hb hs hdir, visible_congr fun x hx => h.entry x (by omega)]
    exact (visible_createdEntry hzero c flags).2 hdel

/-- The lookup at the end of the call, on the disk with the new entry. -/
theorem finddir_iff (hb : Geometry b top) (hs : Sound b top d first) (hzero : ZeroTail b d)
    (hdir : IsDir b d dir) (hformat : formatName83 name = some (name83, ext83))
    (h : Created b top d dir k (createdEntry name83 ext83 c flags) l d')
    {r : Option (Bytes × ℕ × ℕ)}
    (hscan : scanDir b d' dir (finddirVisit name) fuel 0 () = some r) :
    r ≠ none ↔ LookupFinds b d dir name flags := by
  have hnew : ∀ j, slotAddr b d dir j = slotAddr b d dir k → HasSlot b d dir j → j = k :=
    fun j heq hj => (slotAddr_inj hb hs hdir hdir hj h.slot.has heq).2
  have hmatch : nameMatch (entryAt d' (slotAddr b d dir k)) name =
      nameMatch (createdEntry name83 ext83 0 flags) name := by
    rw [nameMatch_congr fun x hx => h.entry x (by omega),
      nameMatch_congr (createdEntry_head name83 ext83 0 c flags)]
  have hnamed : name83 0 ≠ 0 := by
    have := h.named
    rwa [createdEntry, newEntry_zero] at this
  have hm' : ∃ m, FileChain b top d' dir m := by
    obtain ⟨m, hm, -⟩ := hs.exists_dirChain hdir
    exact ⟨m, h.chain_other hb hm⟩
  obtain ⟨m, hm⟩ := hm'
  constructor
  · intro hr
    rcases r with _ | ⟨e, lba, i⟩
    · exact absurd rfl hr
    obtain ⟨j, hlive, hjmatch, -⟩ := finddir_some hb hm hscan
    rw [h.slotAddr_eq hb hs hdir] at hjmatch
    rcases h.live_cases hb hs hzero hdir hlive with heq | hlive'
    · left
      have hvisible := hlive.visible
      rw [h.slotAddr_eq hb hs hdir, heq, visible_congr fun x hx => h.entry x (by omega),
        visible_createdEntry hnamed] at hvisible
      rw [heq, hmatch] at hjmatch
      exact ⟨name83, ext83, hformat, hvisible, hjmatch⟩
    · right
      refine ⟨j, hlive', ?_⟩
      rw [nameMatch_congr fun x hx => h.slot_other hb hs hdir hlive'.has (h.live_ne hlive')
        (show x < 32 by omega)] at hjmatch
      exact hjmatch
  · rintro hfinds rfl
    rcases hfinds with ⟨name83', ext83', hformat', hdel, hread⟩ | ⟨j, hlive, hread⟩
    · obtain ⟨rfl, rfl⟩ := Prod.mk.inj (Option.some.inj (hformat.symm.trans hformat'))
      have hno := finddir_none hb hm hscan (h.live_new hb hs hdir hdel)
      rw [h.slotAddr_eq hb hs hdir, hmatch, hread] at hno
      exact Bool.noConfusion hno
    · have hno := finddir_none hb hm hscan (h.live_of_live hb hs hdir hlive)
      rw [h.slotAddr_eq hb hs hdir, nameMatch_congr fun x hx => h.slot_other hb hs hdir
        hlive.has (h.live_ne hlive) (show x < 32 by omega), hread] at hno
      exact Bool.noConfusion hno

/-- The call that made the entry returns `NULL` exactly when the lookup fails or there
is no heap for the node. -/
theorem ret_ne_none_iff {fs fs' : Fs} {node : VfsNode} {r : Option VfsNode}
    (hb : Geometry fs.bpb top)
    (hs : Sound fs.bpb top fs.disk first) (hmounted : fs.mounted = true)
    (hzero : ZeroTail fs.bpb fs.disk) (hdir : IsDir fs.bpb fs.disk node.inode)
    (hformat : formatName83 name = some (name83, ext83))
    (h : Created fs.bpb top fs.disk node.inode k (createdEntry name83 ext83 c flags) l d')
    (hfind : fat16VfsFinddir fuel node name { fs with disk := d' } = some (r, fs')) :
    r ≠ none ↔ NodeRoom fs ∧ LookupFinds fs.bpb fs.disk node.inode name flags := by
  unfold fat16VfsFinddir at hfind
  rw [if_pos hmounted] at hfind
  obtain ⟨r', hscan, hfind⟩ := Option.bind_eq_some_iff.1 hfind
  rw [← h.finddir_iff hb hs hzero hdir hformat hscan]
  rcases r' with _ | ⟨e, lba, i⟩
  · simp only [Option.some.injEq, Prod.mk.injEq] at hfind
    obtain ⟨rfl, -⟩ := hfind
    simp
  · obtain ⟨⟨addr, heap⟩, hmalloc, hfind⟩ := Option.map_eq_some_iff.1 hfind
    dsimp only at hfind
    split_ifs at hfind with haddr <;>
      simp only [Prod.mk.injEq] at hfind <;>
      obtain ⟨rfl, -⟩ := hfind
    · refine iff_of_false (fun hne => hne rfl) ?_
      rintro ⟨⟨p, heap', hmalloc', hp⟩, -⟩
      rw [hmalloc] at hmalloc'
      obtain ⟨rfl, -⟩ := Prod.mk.inj (Option.some.inj hmalloc')
      exact hp haddr
    · exact iff_of_true (by simp) ⟨⟨addr, heap, hmalloc, haddr⟩, by simp⟩

/-- A creation is invisible exactly when the slot held the entry already. -/
theorem unchanged_iff (hb : Geometry b top) (hs : Sound b top d first) (hdir : IsDir b d dir)
    (hformat : formatName83 name = some (name83, ext83))
    (hl : (flags &&& vfsDir ≠ 0 ∧ l = [c]) ∨ (flags &&& vfsDir = 0 ∧ c = 0 ∧ l = []))
    (h : Created b top d dir k (createdEntry name83 ext83 c flags) l d') :
    Unchanged b d d' ↔ SlotKept b d dir name flags := by
  constructor
  · intro hsame
    rcases hl with ⟨-, rfl⟩ | ⟨hflag, rfl, rfl⟩
    · obtain ⟨huse, hfree⟩ := h.fresh c (by simp)
      have hused := h.chain.fatAt_ne_zero (List.mem_singleton.2 rfl)
      rw [hsame.table c (huse.lt_table hb)] at hused
      exact absurd hfree hused
    · refine ⟨hflag, name83, ext83, k, hformat, h.slot, fun x hx => ?_⟩
      rw [← (hsame.slots dir k hdir h.slot.has).2 x hx, h.entry x hx]
  · rintro ⟨hflag, name83', ext83', k', hformat', hfree, hentry⟩
    obtain ⟨rfl, rfl⟩ := Prod.mk.inj (Option.some.inj (hformat.symm.trans hformat'))
    obtain rfl := h.slot.unique hfree
    rcases hl with ⟨hflag', -⟩ | ⟨-, rfl, rfl⟩
    · exact absurd hflag hflag'
    · refine ⟨fun y hy => h.frame.fat y hy List.not_mem_nil, fun q j hq hj =>
        ⟨h.slotAddr_eq hb hs hq j, fun x hx => ?_⟩⟩
      by_cases heq : slotAddr b d q j = slotAddr b d dir k
      · rw [heq, h.entry x hx, hentry x hx]
      · exact h.slot_other hb hs hq hj heq hx

end Created

theorem Created.not_notCreated (h : Created b top d dir k (createdEntry name83 ext83 c flags) l d')
    (hb : Geometry b top) (hformat : formatName83 name = some (name83, ext83))
    (hl : (flags &&& vfsDir ≠ 0 ∧ l = [c]) ∨ (flags &&& vfsDir = 0 ∧ c = 0 ∧ l = [])) :
    ¬ NotCreated b d dir name flags := by
  rintro (hbad | hnofree | ⟨hflag, hfull⟩)
  · rw [hformat] at hbad
    cases hbad
  · exact hnofree k h.slot.has h.slot.free
  · rcases hl with ⟨-, rfl⟩ | ⟨hflag', -⟩
    · obtain ⟨huse, hfree⟩ := h.fresh c (by simp)
      exact hfull c (huse.lt_table hb) huse.1 hfree
    · exact hflag hflag'

/-- Every call of `fat16_vfs_create` that returns, on every well-formed volume and with
every heap: a `NULL` means that nothing changed exactly under `FailsClean`. -/
theorem unchanged_of_null_iff {fs fs' : Fs} {node : VfsNode} {r : Option VfsNode}
    (hb : Geometry fs.bpb top) (htop : ∀ k < 256 * fs.bpb.fatSize, DataCluster fs.bpb k → k < top)
    (hmounted : fs.mounted = true) (hwf : WellFormed fs.bpb top fs.disk)
    (hzero : ZeroTail fs.bpb fs.disk) (hdir : IsDir fs.bpb fs.disk node.inode)
    (hname : 0 ∉ name) (hrun : fat16VfsCreate fuel node name flags fs = some (r, fs')) :
    (r = none → Unchanged fs.bpb fs.disk fs'.disk) ↔
      FailsClean fs node.inode name flags := by
  have hs := hwf.sound htop
  rcases fat16VfsCreate_cases hb hs hmounted hdir hname hrun with
    ⟨rfl, -, -, hsafe, hwhy⟩ | ⟨name83, ext83, k, c, l, d', hformat, hcreated, hl, hfind⟩
  · exact iff_of_true (fun _ => hsafe.unchanged hb hs) (Or.inl hwhy)
  · have hdisk := (fat16VfsFinddir_disk hfind).1
    have hnot := hcreated.not_notCreated hb hformat hl
    have hret := hcreated.ret_ne_none_iff hb hs hmounted hzero hdir hformat hfind
    rw [hdisk, FailsClean, ← hret, ← hcreated.unchanged_iff hb hs hdir hformat hl]
    constructor
    · intro himp
      by_cases hr : r = none
      · exact Or.inr (Or.inr (himp hr))
      · exact Or.inr (Or.inl hr)
    · rintro (hno | hr | hsame) hnull
      · exact absurd hno hnot
      · exact absurd hnull hr
      · exact hsame

/-- A directory whose name has nine characters: its cluster is allocated and gets its dot
entries, and is given back, as the name has no 8.3 form. -/
theorem unchanged_of_null_small :
    ∃ fs', fat16VfsCreate 2 fat16RootNode (List.replicate 9 0x44) vfsDir
        (mountedFs (smallVolume 2 1 0)) = some (none, fs') ∧ fs'.disk 2048 = 0x2E ∧
      Unchanged smallBpb (smallVolume 2 1 0) fs'.disk := by
  have hbpb := mountedFs_smallVolume 2 1 0
  have hret : ((fat16VfsCreate 2 fat16RootNode (List.replicate 9 0x44) vfsDir
      (mountedFs (smallVolume 2 1 0))).map fun r => (r.1.isNone, r.2.disk 2048)) =
      some (true, 0x2E) := by
    decide +kernel
  obtain ⟨⟨r, fs'⟩, hrun, hvalues⟩ := Option.map_eq_some_iff.1 hret
  obtain ⟨hnone, hdot⟩ := Prod.mk.inj hvalues
  obtain rfl := Option.isNone_iff_eq_none.1 hnone
  have hiff := unchanged_of_null_iff
    (show Geometry (mountedFs (smallVolume 2 1 0)).bpb (clusterTop smallBpb) from
      hbpb.symm ▸ layout_small.geometry)
    (by rw [hbpb]; exact fun k hk hdata => Nat.lt_min.2 ⟨hdata.2.2, hk⟩) rfl
    (hbpb.symm ▸ wellFormed_small layout_small.geometry (by decide) (Or.inr rfl))
    (hbpb.symm ▸ zeroTail_small 2 1 0) IsDir.root (by decide) hrun
  rw [hbpb] at hiff
  exact ⟨fs', hrun, hdot, hiff.2 (Or.inl (Or.inl rfl)) rfl⟩

/-- Creating the file `B.` returns `NULL`, since the name reads back as `B`, and leaves
the entry in the root directory. -/
theorem not_unchanged_small :
    WellFormed smallBpb (clusterTop smallBpb) (smallVolume 2 1 0) ∧
      ∃ fs', fat16VfsCreate 2 fat16RootNode [0x42, 0x2E] vfsFile (mountedFs (smallVolume 2 1 0)) =
          some (none, fs') ∧ ¬ Unchanged smallBpb (smallVolume 2 1 0) fs'.disk := by
  refine ⟨wellFormed_small layout_small.geometry (by decide) (Or.inr rfl), ?_⟩
  have hret : ((fat16VfsCreate 2 fat16RootNode [0x42, 0x2E] vfsFile
      (mountedFs (smallVolume 2 1 0))).map fun r => (r.1.isNone, r.2.disk 1056)) =
      some (true, 0x42) := by
    decide +kernel
  obtain ⟨⟨r, fs'⟩, hrun, hvalues⟩ := Option.map_eq_some_iff.1 hret
  obtain ⟨hnone, hslot⟩ := Prod.mk.inj hvalues
  obtain rfl := Option.isNone_iff_eq_none.1 hnone
  refine ⟨fs', hrun, fun h => ?_⟩
  have hsame := (h.slots 0 1 IsDir.root (hasSlot_small.2 (by omega))).2 0 (by omega)
  rw [slotAddr_small (by omega)] at hsame
  exact absurd (hslot.symm.trans hsame) (by decide)

end Fat16

end Yotos
