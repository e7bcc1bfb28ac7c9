import Yotos.Fat16.Contents
import Yotos.Kheap.Safety
import Mathlib.Data.Finset.Card

/-!
# What a write leaves on the disk

A write can end early, with the disk full or without a buffer, and the question is
whether the file's entry then still describes its clusters. The first cluster of an
empty file is allocated before the buffer, and is lost when there is none; and a call
that runs out of clusters before it reaches `offset` still sets the size to `offset`.
Clusters are neither made nor lost while a chain grows, so the second case is one of
counting: the chain ends up with all the clusters that were free.
-/

namespace Yotos

namespace Fat16

open Bytes Kheap Library

variable {b : Bpb} {top : ℕ} {d d' : Disk} {first : ℕ → ℕ} {c f i offset : ℕ} {l l' : List ℕ}

/-- The free clusters that the search of `fat_alloc_cluster` can find. -/
def freeClusters (b : Bpb) (d : Disk) : Finset ℕ :=
  (Finset.range (256 * b.fatSize)).filter fun k => 2 ≤ k ∧ fatAt b d k = 0

/-- The entry in slot `f` has a chain that is long enough for its size and contains
every cluster that was free in `d` and is in use now. -/
def Consistent (b : Bpb) (top : ℕ) (d d' : Disk) (f : ℕ) : Prop :=
  ∃ l, FileChain b top d' (firstCluster (entryAt d' f)) l ∧
    fileSize (entryAt d' f) ≤ l.length * b.clusterBytes ∧
    ∀ k < 256 * b.fatSize, fatAt b d k = 0 → fatAt b d' k ≠ 0 → k ∈ l

/-- The heap has a block for the cluster buffer. -/
def BufferRoom (b : Bpb) (bs : List Block) : Prop := ∃ blk ∈ bs, Fits b.clusterBytes blk

/-- When a write to a file with chain `l` leaves a consistent entry: no cluster is there
to be taken, or the buffer is there and the offset within the file's clusters and the
free ones, or the buffer is not there and the file has a first cluster already. -/
def WriteFits (b : Bpb) (d : Disk) (bs : List Block) (l : List ℕ) (offset : ℕ) : Prop :=
  (l = [] ∧ freeClusters b d = ∅) ∨
    (BufferRoom b bs ∧ offset ≤ (l.length + (freeClusters b d).card) * b.clusterBytes) ∨
    (¬ BufferRoom b bs ∧ l ≠ [])

theorem mem_freeClusters {k : ℕ} :
    k ∈ freeClusters b d ↔ k < 256 * b.fatSize ∧ 2 ≤ k ∧ fatAt b d k = 0 := by
  rw [freeClusters, Finset.mem_filter, Finset.mem_range]

theorem full_iff_freeClusters : Full b d ↔ freeClusters b d = ∅ := by
  rw [Finset.eq_empty_iff_forall_notMem]
  constructor
  · intro h k hk
    obtain ⟨hlt, htwo, hzero⟩ := mem_freeClusters.1 hk
    exact h k hlt htwo hzero
  · intro h k hk htwo hzero
    exact h k (mem_freeClusters.2 ⟨hk, htwo, hzero⟩)

/-- A chain grows by as many clusters as were taken from the free ones. -/
theorem Grown.card_freeClusters (hb : Geometry b top) (hl : FileChain b top d i l)
    (h : Grown b top d l c d' l') :
    (freeClusters b d').card + l'.length = (freeClusters b d).card + l.length := by
  obtain ⟨ext, rfl⟩ := h.isPrefix
  have hnodup := h.chain.nodup fun _ => InUse.not_endMark hb
  have hext : ext.Nodup := (List.nodup_append.1 hnodup).2.1
  have hlt : ∀ k ∈ l ++ ext, k < 256 * b.fatSize := fun k hk =>
    (h.chain.inside_of_mem hk).lt_table hb
  have hused : ∀ k ∈ l ++ ext, fatAt b d' k ≠ 0 := by
    intro k hk hzero
    rcases h.chain.next_mem_or_stop hk with hin | hmark
    · have := (h.chain.inside_of_mem hin).1
      omega
    · have : 0xFFF8 ≤ fatAt b d' k := hmark
      omega
  -- the new clusters were free, the old ones are not
  have hsub : ext.toFinset ⊆ freeClusters b d := by
    intro k hk
    rw [List.mem_toFinset] at hk
    have hmem : k ∈ l ++ ext := List.mem_append_right l hk
    refine mem_freeClusters.2 ⟨hlt k hmem, (h.chain.inside_of_mem hmem).1, ?_⟩
    refine (h.fresh k hmem).resolve_left fun hkl => ?_
    exact (List.nodup_append.1 hnodup).2.2 k hkl k hk rfl
  have hfree : freeClusters b d' = freeClusters b d \ ext.toFinset := by
    ext k
    rw [Finset.mem_sdiff, List.mem_toFinset, mem_freeClusters, mem_freeClusters]
    constructor
    · rintro ⟨hk, htwo, hzero⟩
      have hnot : k ∉ l ++ ext := fun hmem => hused k hmem hzero
      rw [h.frame.fat k hk hnot] at hzero
      exact ⟨⟨hk, htwo, hzero⟩, fun hmem => hnot (List.mem_append_right l hmem)⟩
    · rintro ⟨⟨hk, htwo, hzero⟩, hnot⟩
      refine ⟨hk, htwo, ?_⟩
      rw [h.frame.fat k hk fun hmem => ?_]
      · exact hzero
      · rcases List.mem_append.1 hmem with hkl | hke
        · exact hl.fatAt_ne_zero hkl hzero
        · exact hnot hke
  have hcard := Finset.card_sdiff_add_card_eq_card hsub
  rw [List.toFinset_card_of_nodup hext] at hcard
  rw [hfree, List.length_append]
  omega

/-! ## The call returns -/

theorem writeLoop_isSome (hpos : 0 < b.clusterBytes) {inode size : ℕ} {buf : Bytes}
    {fuel lo : ℕ} {cbuf : Bytes} (hfuel : size ≤ fuel + lo) :
    ∃ r, writeLoop b inode offset size buf fuel lo cbuf d = some r := by
  induction fuel generalizing lo cbuf d with
  | zero => exact ⟨_, if_neg (by omega)⟩
  | succ fuel ih =>
      rw [writeLoop]
      split_ifs with hlt
      · have hmod := Nat.mod_lt ((offset + lo) % 2 ^ 32) hpos
        dsimp only
        rcases extendWalk b ((offset + lo) % 2 ^ 32 / b.clusterBytes) (inode % 65536) d with
          ⟨ok, x, d₁⟩
        cases ok with
        | false => exact ⟨_, rfl⟩
        | true =>
            refine ih ?_
            omega
      · exact ⟨_, rfl⟩

theorem kmalloc_of_bufferRoom {m : Bytes} {start : ℕ} {bs : List Block} (hp : Placed start)
    (h : Represents m start bs) (hroom : BufferRoom b bs) :
    ∃ p heap, kmalloc start b.clusterBytes m = some (p, heap) ∧ p ≠ 0 := by
  rcases kmalloc_spec b.clusterBytes hp h with ⟨hnone, -⟩ | ⟨_, _, _, heap, -, -, -, heq, -⟩
  · obtain ⟨blk, hmem, hfits⟩ := hroom
    exact absurd hfits (hnone blk hmem)
  · exact ⟨_, heap, heq, by omega⟩

theorem kmalloc_of_not_bufferRoom {m : Bytes} {start : ℕ} {bs : List Block} (hp : Placed start)
    (h : Represents m start bs) (hroom : ¬ BufferRoom b bs) :
    kmalloc start b.clusterBytes m = some (0, m) := by
  rcases kmalloc_spec b.clusterBytes hp h with ⟨-, heq⟩ | ⟨xs, blk, ys, _, rfl, -, hfits, -⟩
  · exact heq
  · exact absurd ⟨blk, by simp, hfits⟩ hroom

/-! ## The ways a call ends -/

/-- Without a change the entry stays consistent. -/
theorem consistent_refl (hl : FileChain b top d (firstCluster (entryAt d f)) l)
    (hlong : fileSize (entryAt d f) ≤ l.length * b.clusterBytes) : Consistent b top d d f :=
  ⟨l, hl, hlong, fun _ _ hzero hne => absurd hzero hne⟩

/-- A first cluster that the entry does not name is lost. -/
theorem not_consistent_of_lost (hb : Geometry b top) (hs : Sound b top d first)
    {node : VfsNode} (hn : OnSlot b d node f) (hl : FileChain b top d (first f) [])
    (hlt : firstCluster (entryAt d f) < 2) (hgrown : Grown b top d [] i d' l') (hmem : i ∈ l') :
    ¬ Consistent b top d d' f := by
  rintro ⟨m, hm, -, hall⟩
  have huse := hgrown.chain.inside_of_mem hmem
  have hprivate : Private b top d first (· ∈ l') := fun c hc =>
    ⟨hgrown.chain.inside_of_mem hc, (hgrown.fresh c hc).symm.imp_right
      fun hcl => ⟨f, [], hn.owner, hn.file, hl, hcl⟩⟩
  have hentry : ∀ x < 32, entryAt d' f x = entryAt d f x := fun x hx =>
    hgrown.frame.dirByte_eq hb hs hprivate (hn.live.dirByte hx) id
  rw [firstCluster_congr hentry, fileChain_of_lt hlt] at hm
  subst hm
  have hzero := (hgrown.fresh i hmem).resolve_left List.not_mem_nil
  have hchain : FileChain b top d' i l' :=
    (fileChain_of_two_le huse.1).2 ⟨List.ne_nil_of_mem hmem, hgrown.chain⟩
  exact List.not_mem_nil (hall i (huse.lt_table hb) hzero (hchain.fatAt_ne_zero hmem))

/-- After the update of its entry a file is consistent exactly when its clusters reach
its new size. -/
theorem consistent_updateEntry (hb : Geometry b top) (hs : Sound b top d first)
    {node node' : VfsNode} (hn : OnSlot b d node f) (hgrown : Grown b top d l node'.inode d' l')
    (hmem : node'.inode ∈ l') (hlba : node'.dirLba = node.dirLba)
    (hindex : node'.dirIndex = node.dirIndex) (hsize : node'.size < 2 ^ 32) :
    Consistent b top d (updateEntry d' node') f ↔
      node'.size ≤ l'.length * b.clusterBytes := by
  have hreg := regrown_updateEntry hb hs hn hgrown hmem hlba hindex
  have huse := hgrown.chain.inside_of_mem hmem
  have hfirst := firstCluster_updateEntry hn d' node' hlba hindex (huse.lt hb)
  have hfile := fileSize_updateEntry hn d' node' hlba hindex hsize
  rw [Consistent, hfirst, hfile]
  constructor
  · rintro ⟨m, hm, hle, -⟩
    obtain rfl := hm.unique hb hreg.chain
    exact hle
  · intro hle
    refine ⟨l', hreg.chain, hle, fun k hk hzero hne => ?_⟩
    by_contra hnot
    rw [hreg.frame.fat k hk hnot] at hne
    exact hne hzero

/-- A file whose old size fits its old chain fits the grown one exactly when `offset` is
within all the clusters it can get. -/
theorem Wrote.size_le_iff (hb : Geometry b top) {n size nodeSize : ℕ} {buf : Bytes}
    (hl : FileChain b top d i l) (h : Wrote b top d l c offset 0 n buf d' l') (hsize : 0 < size)
    (hold : nodeSize ≤ l.length * b.clusterBytes)
    (hshort : n < size → Full b d' ∧ l'.length * b.clusterBytes ≤ offset + n) :
    max nodeSize (offset + n) ≤ l'.length * b.clusterBytes ↔
      offset ≤ (l.length + (freeClusters b d).card) * b.clusterBytes := by
  have hcount := h.grown.card_freeClusters hb hl
  have hlen := length_mul_le (b := b) h.grown.isPrefix
  have hmul : l'.length * b.clusterBytes ≤
      (l.length + (freeClusters b d).card) * b.clusterBytes :=
    Nat.mul_le_mul_right _ (by omega)
  rcases Nat.eq_zero_or_pos n with rfl | hpos
  · -- nothing was written: the table is full, and the chain has all the clusters
    obtain ⟨hfull, hle⟩ := hshort hsize
    rw [full_iff_freeClusters.1 hfull, Finset.card_empty] at hcount
    have heq : l'.length = l.length + (freeClusters b d).card := by omega
    rw [← heq, Nat.max_le]
    exact ⟨fun hmax => hmax.2, fun hoff => ⟨hold.trans hlen, hoff⟩⟩
  · have hfits := h.fits hpos
    exact iff_of_true (Nat.max_le.2 ⟨hold.trans hlen, hfits⟩) (by omega)

/-- Every call of `fat16_vfs_write` on a well-formed volume returns, and the file's entry
describes its clusters afterwards exactly under `WriteFits`. -/
theorem consistent_iff_writeFits (fs : Fs) (node : VfsNode) (f offset size : ℕ) (buf : Bytes)
    (bs : List Block) (l : List ℕ) (hb : Layout fs.bpb) (hmounted : fs.mounted = true)
    (hp : Placed fs.heapStart) (hheap : Represents fs.heap fs.heapStart bs)
    (hwf : WellFormed fs.bpb (clusterTop fs.bpb) fs.disk)
    (hlong : LongEnough fs.bpb (clusterTop fs.bpb) fs.disk)
    (hnode : FileNode fs.bpb fs.disk node f)
    (hl : FileChain fs.bpb (clusterTop fs.bpb) fs.disk node.inode l) (hsize : 0 < size)
    (hoff : offset + size < 2 ^ 32) :
    ∃ ret node' fs', fat16VfsWrite node offset size buf fs = some (ret, node', fs') ∧
      (Consistent fs.bpb (clusterTop fs.bpb) fs.disk fs'.disk f ↔
        WriteFits fs.bpb fs.disk bs l offset) := by
  have hgeo := hb.geometry
  have hs := hwf.sound fun k hk hdata => Nat.lt_min.2 ⟨hdata.2.2, hk⟩
  have hslot := hnode.slot
  have hl' := hl
  rw [hnode.inode_eq] at hl'
  have hold := hlong f l hslot.owner hslot.file hl'
  have hnodeSize := hslot.size_lt
  rcases fat16VfsWrite_start offset buf hgeo hmounted hs.free hl hslot.inode_lt hsize with
    ⟨rfl, hfull, heq⟩ | ⟨i, d₁, l₁, hwrote, hmem, hsame, hfree₁, heq⟩
  · exact ⟨_, _, _, heq, iff_of_true (consistent_refl hl' hold)
      (Or.inl ⟨rfl, full_iff_freeClusters.1 hfull⟩)⟩
  have hcount := hwrote.grown.card_freeClusters hgeo hl'
  have hne₁ := List.length_pos_of_mem hmem
  have htaken : ¬ (l = [] ∧ freeClusters fs.bpb fs.disk = ∅) := by
    rintro ⟨rfl, hempty⟩
    rw [hempty, Finset.card_empty, List.length_nil] at hcount
    omega
  by_cases hroom : BufferRoom fs.bpb bs
  · obtain ⟨p, heap, hmalloc, hpne⟩ := kmalloc_of_bufferRoom hp hheap hroom
    obtain ⟨⟨n, d'⟩, hloop⟩ := @writeLoop_isSome fs.bpb d₁ offset (clusterBytes_pos hgeo) i size
      buf size 0 (fun x => heap (p + x)) le_rfl
    have huse := hwrote.grown.chain.inside_of_mem hmem
    obtain ⟨hn, l₂, hwrote₂, hshort⟩ := writeLoop_spec hgeo hoff (huse.lt hgeo)
      hwrote.grown.chain hmem hfree₁ (Nat.zero_le size) hloop
    have hwhole := hwrote.trans hgeo hwrote₂
    have hmem₂ := hwrote₂.grown.isPrefix.subset hmem
    rw [hmalloc, Option.bind_some] at heq
    simp only [hpne, if_false, hloop, Option.map_some,
      Nat.mod_eq_of_lt (show offset + n < 2 ^ 32 by omega)] at heq
    refine ⟨_, _, _, heq, ?_⟩
    have hlt : max node.size (offset + n) < 2 ^ 32 := by omega
    have hupdate : Consistent fs.bpb (clusterTop fs.bpb) fs.disk (updateEntry d'
        { node with inode := i, size := max node.size (offset + n) }) f ↔
        max node.size (offset + n) ≤ l₂.length * fs.bpb.clusterBytes :=
      consistent_updateEntry hgeo hs hslot hwhole.grown hmem₂ rfl rfl hlt
    rw [hupdate, WriteFits, or_iff_right htaken,
      hwhole.size_le_iff hgeo hl' hsize (hnode.size_eq ▸ hold) hshort]
    exact ⟨fun h => Or.inl ⟨hroom, h⟩, fun h => (h.resolve_right fun hno => hno.1 hroom).2⟩
  · have hmalloc := kmalloc_of_not_bufferRoom hp hheap hroom
    rw [hmalloc, Option.bind_some] at heq
    simp only [if_true] at heq
    refine ⟨_, _, _, heq, ?_⟩
    rw [WriteFits, or_iff_right htaken]
    by_cases hempty : l = []
    · subst hempty
      have hlt : firstCluster (entryAt fs.disk f) < 2 := by
        rcases hl'.cases with ⟨hlt, -⟩ | ⟨-, hmem', -⟩
        · exact hlt
        · cases hmem'
      refine iff_of_false (not_consistent_of_lost hgeo hs hslot hl' hlt hwrote.grown hmem) ?_
      rintro (⟨hyes, -⟩ | ⟨-, hne⟩)
      · exact hroom hyes
      · exact hne rfl
    · obtain ⟨-, rfl, rfl⟩ := hsame hempty
      exact iff_of_true (consistent_refl hl' hold) (Or.inr ⟨hroom, hempty⟩)

/-- A write behind the one cluster of the file `A`: a second cluster is allocated. -/
theorem consistent_small :
    ∃ node' fs', fat16VfsWrite (smallNode 2 1 0) 512 1 (fun _ => 0x42)
        (mountedFs (smallVolume 2 1 0)) = some (1, node', fs') ∧
      fatAt smallBpb fs'.disk 2 = 3 ∧ fileSize (entryAt fs'.disk 1024) = 513 ∧
      Consistent smallBpb (clusterTop smallBpb) (smallVolume 2 1 0) fs'.disk 1024 := by
  have hbpb := mountedFs_smallVolume 2 1 0
  have hgeo := layout_small.geometry
  have htop : 3 ≤ clusterTop smallBpb := by decide
  have hp : Placed (mountedFs (smallVolume 2 1 0)).heapStart :=
    (⟨by decide, by decide⟩ : Placed 0x111000)
  have hchain : FileChain smallBpb (clusterTop smallBpb) (smallVolume 2 1 0) 2 [2] :=
    (fileChain_of_two_le le_rfl).2 ⟨by simp, clusterChain_small htop 2 1 0⟩
  obtain ⟨ret, node', fs', hrun, hiff⟩ := consistent_iff_writeFits
    (mountedFs (smallVolume 2 1 0)) (smallNode 2 1 0) 1024 512 1 (fun _ => 0x42) _ [2]
    (hbpb.symm ▸ layout_small) rfl hp (represents_kheapInit hp _)
    (hbpb.symm ▸ wellFormed_small hgeo htop (Or.inr rfl))
    (hbpb.symm ▸ longEnough_small hgeo htop (Or.inl rfl)) (hbpb.symm ▸ fileNode_small 2 1 0)
    (hbpb.symm ▸ hchain) (by omega) (by omega)
  have hvalues : (fat16VfsWrite (smallNode 2 1 0) 512 1 (fun _ => 0x42)
      (mountedFs (smallVolume 2 1 0))).map (fun r => (r.1, fatAt smallBpb r.2.2.disk 2,
        fileSize (entryAt r.2.2.disk 1024))) = some (1, 3, 513) := by
    decide +kernel
  rw [hrun, Option.map_some, Option.some_inj] at hvalues
  simp only [Prod.mk.injEq] at hvalues
  obtain ⟨rfl, hlink, hsize⟩ := hvalues
  rw [hbpb] at hiff
  have hroom : BufferRoom smallBpb [⟨kheapFixedSize - headerSize, true⟩] :=
    ⟨_, List.mem_singleton.2 rfl, rfl, by decide⟩
  have hfits : 512 ≤ (1 + (freeClusters smallBpb (smallVolume 2 1 0)).card) *
      smallBpb.clusterBytes := by
    decide +kernel
  exact ⟨node', fs', hrun, hlink, hsize, hiff.2 (Or.inr (Or.inl ⟨hroom, hfits⟩))⟩

/-- A write at offset 1024 of the one-byte file `A` on a volume without a free cluster: no
byte is written, and the size on the disk grows past the file's one cluster. -/
theorem not_consistent_small :
    ∃ node' fs', fat16VfsWrite (smallNode 2 1 0xFF) 1024 1 (fun _ => 0x42)
        (mountedFs (smallVolume 2 1 0xFF)) = some (0, node', fs') ∧
      WellFormed smallBpb (clusterTop smallBpb) (smallVolume 2 1 0xFF) ∧
      LongEnough smallBpb (clusterTop smallBpb) (smallVolume 2 1 0xFF) ∧
      FileNode smallBpb (smallVolume 2 1 0xFF) (smallNode 2 1 0xFF) 1024 ∧
      fileSize (entryAt fs'.disk 1024) = 1024 ∧
      ¬ Consistent smallBpb (clusterTop smallBpb) (smallVolume 2 1 0xFF) fs'.disk 1024 := by
  have hret : (fat16VfsWrite (smallNode 2 1 0xFF) 1024 1 (fun _ => 0x42)
      (mountedFs (smallVolume 2 1 0xFF))).map (fun r => (r.1, fileSize (entryAt r.2.2.disk 1024),
        firstCluster (entryAt r.2.2.disk 1024), fatAt smallBpb r.2.2.disk 2)) =
      some (0, 1024, 2, 0xFFFF) := by
    decide +kernel
  obtain ⟨⟨ret, node', fs'⟩, hrun, hvalues⟩ := Option.map_eq_some_iff.1 hret
  simp only [Prod.mk.injEq] at hvalues
  obtain ⟨rfl, hsize, hfirst, hlink⟩ := hvalues
  have hgeo := layout_small.geometry
  have htop : 3 ≤ clusterTop smallBpb := by decide
  refine ⟨node', fs', hrun, wellFormed_small hgeo htop (Or.inr rfl),
    longEnough_small hgeo htop (Or.inl rfl), fileNode_small 2 1 0xFF, hsize, ?_⟩
  rintro ⟨l, hl, hle, -⟩
  rw [hfirst] at hl
  have hchain : FileChain smallBpb (clusterTop smallBpb) fs'.disk 2 [2] := by
    refine (fileChain_of_two_le le_rfl).2 ⟨by simp, Chain.single ⟨le_rfl, htop⟩ ?_⟩
    rw [hlink]
    exact Nat.le_of_ble_eq_true rfl
  obtain rfl := hl.unique hgeo hchain
  rw [hsize, show smallBpb.clusterBytes = 512 by decide] at hle
  simp at hle

end Fat16

end Yotos
