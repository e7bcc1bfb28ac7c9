import Yotos.Fat16.Data

/-!
# One call of `fat16_vfs_write`

`fat16VfsWrite_cases` lists the four ways a call ends. In each of them the file has a
chain that extends the old one by free clusters, and apart from that chain only the
last six bytes of the file's slot can have changed: that is `Regrown`, and it keeps
`Sound` and the directories.
-/

namespace Yotos

namespace Fat16

open Bytes Kheap Library

variable {b : Bpb} {top : ℕ} {d d' : Disk} {first : ℕ → ℕ} {f i : ℕ} {l l' : List ℕ}

/-- The node stands for the file whose entry is in slot `f`. -/
structure OnSlot (b : Bpb) (d : Disk) (node : VfsNode) (f : ℕ) : Prop where
  live : LiveEntry b d f
  file : isDirectory (entryAt d f) = false
  addr : f = 512 * node.dirLba + 32 * node.dirIndex
  lba_lt : node.dirLba < 2 ^ 28
  index_lt : node.dirIndex < 16
  inode_lt : node.inode < 65536
  size_lt : node.size < 2 ^ 32

/-- First cluster and size in the slot at address `f`. -/
def EntryTail (f x : ℕ) : Prop := f + 26 ≤ x ∧ x < f + 32

/-- The file of slot `f` had chain `l` and now has chain `l'`, from cluster `i` on. -/
structure Regrown (b : Bpb) (top : ℕ) (d : Disk) (l : List ℕ) (f i : ℕ) (d' : Disk)
    (l' : List ℕ) : Prop where
  fresh : ∀ c ∈ l', c ∈ l ∨ fatAt b d c = 0
  chain : FileChain b top d' i l'
  frame : Frame b d d' (· ∈ l') (EntryTail f)
  onDisk : 2 ≤ firstCluster (entryAt d' f) → i = firstCluster (entryAt d' f)

theorem isDot_of_file {e : Bytes} (h : isDirectory e = false) : isDot e = false := by
  rw [isDot, h, Bool.false_and]

theorem OnSlot.owner {node : VfsNode} (h : OnSlot b d node f) : Owner b d f :=
  ⟨h.live, isDot_of_file h.file⟩

theorem LiveEntry.mod (h : LiveEntry b d f) : f % 32 = 0 := by
  obtain ⟨dir, k, -, -, rfl⟩ := h
  exact slotAddr_mod b d dir k

theorem LiveEntry.dirByte (h : LiveEntry b d f) {x : ℕ} (hx : x < 32) : DirByte b d (f + x) := by
  obtain ⟨dir, k, hdir, hlive, rfl⟩ := h
  exact ⟨dir, k, x, hdir, hlive.has, hx, rfl⟩

/-! ## What a regrown file keeps -/

namespace Regrown

theorem private_chain (hf : Owner b d f) (hfile : isDirectory (entryAt d f) = false)
    (hl : FileChain b top d (first f) l) (h : Regrown b top d l f i d' l') :
    Private b top d first (· ∈ l') := fun c hc =>
  ⟨h.chain.inUse hc, (h.fresh c hc).symm.imp_right fun hmem => ⟨f, l, hf, hfile, hl, hmem⟩⟩

theorem sameTree (hb : Geometry b top) (hs : Sound b top d first) (hf : Owner b d f)
    (hfile : isDirectory (entryAt d f) = false) (hl : FileChain b top d (first f) l)
    (h : Regrown b top d l f i d' l') : SameTree b d d' f :=
  h.frame.sameTree hb hs (h.private_chain hf hfile hl) (fun _ hx => hx) hf.1.mod hfile

/-- The chains of other entries have no cluster in common with the new chain. -/
theorem disjoint_other (hs : Sound b top d first) (hf : Owner b d f)
    (hl : FileChain b top d (first f) l) (h : Regrown b top d l f i d' l') {a : ℕ}
    {m : List ℕ} (ha : Owner b d a) (hne : a ≠ f) (hm : FileChain b top d (first a) m) :
    m.Disjoint l' := by
  intro c hcm hcl
  rcases h.fresh c hcl with hmem | hzero
  · exact hs.disjoint a f m l ha hf hne hm hl hcm hmem
  · exact hm.fatAt_ne_zero hcm hzero

theorem chain_other (hb : Geometry b top) (hs : Sound b top d first) (hf : Owner b d f)
    (hl : FileChain b top d (first f) l) (h : Regrown b top d l f i d' l') {a : ℕ}
    {m : List ℕ} (ha : Owner b d a) (hne : a ≠ f) (hm : FileChain b top d (first a) m) :
    FileChain b top d' (first a) m :=
  hm.congr fun x hx => h.frame.fat x ((hm.inUse hx).lt_table hb)
    (h.disjoint_other hs hf hl ha hne hm hx)

theorem freeBelow (hs : Sound b top d first) (h : Regrown b top d l f i d' l') :
    FreeBelow b top d' := by
  intro k hk hzero
  by_cases hmem : k ∈ l'
  · exact absurd hzero (h.chain.fatAt_ne_zero hmem)
  · rw [h.frame.fat k hk hmem] at hzero
    exact hs.free k hk hzero

theorem sound (hb : Geometry b top) (hs : Sound b top d first) (hf : Owner b d f)
    (hfile : isDirectory (entryAt d f) = false) (hl : FileChain b top d (first f) l)
    (h : Regrown b top d l f i d' l') :
    Sound b top d' (Function.update first f i) := by
  have htree := h.sameTree hb hs hf hfile hl
  have howner : ∀ a, Owner b d' a → Owner b d a := fun a => (htree.owner_iff hb hs).1
  have hself : Function.update first f i f = i := Function.update_self ..
  have hothers : ∀ a, a ≠ f → Function.update first f i a = first a :=
    fun a hne => Function.update_of_ne hne ..
  -- the chain of an entry afterwards, by whether it is the file's
  have hchain (a : ℕ) (ha : Owner b d a) (hne : a ≠ f) (m : List ℕ)
      (hm : FileChain b top d' (first a) m) : FileChain b top d (first a) m := by
    obtain ⟨m', hm'⟩ := hs.chain a ha
    obtain rfl := hm.unique hb (h.chain_other hb hs hf hl ha hne hm')
    exact hm'
  refine ⟨h.freeBelow hs, fun a ha => ?_, fun a a' m m' ha ha' hne hm hm' => ?_,
    fun a ha htwo => ?_⟩
  · by_cases heq : a = f
    · subst heq
      rw [hself]
      exact ⟨l', h.chain⟩
    · obtain ⟨m, hm⟩ := hs.chain a (howner a ha)
      rw [hothers a heq]
      exact ⟨m, h.chain_other hb hs hf hl (howner a ha) heq hm⟩
  · have ha := howner a ha
    have ha' := howner a' ha'
    by_cases heq : a = f
    · subst heq
      rw [hself] at hm
      rw [hothers a' hne.symm] at hm'
      obtain rfl := hm.unique hb h.chain
      exact List.disjoint_symm
        (h.disjoint_other hs hf hl ha' hne.symm (hchain a' ha' hne.symm m' hm'))
    · rw [hothers a heq] at hm
      have hm := hchain a ha heq m hm
      by_cases heq' : a' = f
      · subst heq'
        rw [hself] at hm'
        obtain rfl := hm'.unique hb h.chain
        exact h.disjoint_other hs hf hl ha heq hm
      · rw [hothers a' heq'] at hm'
        exact hs.disjoint a a' m m' ha ha' hne hm (hchain a' ha' heq' m' hm')
  · by_cases heq : a = f
    · subst heq
      rw [hself]
      exact h.onDisk htwo
    · rw [hothers a heq]
      have hentry := htree.liveEntry_other (howner a ha).1 heq
      rw [firstCluster_congr hentry] at htwo ⊢
      exact hs.onDisk a (howner a ha) htwo

end Regrown

/-! ## The directory entry -/

/-- First cluster and size go into the slot that the node names. -/
theorem updateEntry_eq_store {node : VfsNode} (hlba : node.dirLba < 2 ^ 28)
    (hindex : node.dirIndex < 16) (d : Disk) :
    updateEntry d node =
      store32 (store16 d (512 * node.dirLba + 32 * node.dirIndex + 26) node.inode)
        (512 * node.dirLba + 32 * node.dirIndex + 28) node.size := by
  rw [updateEntry]
  refine writeSector_patch _ _ _ hlba (fun x hx => ?_) fun a ha => ?_
  · simp only [store32, store16, store8, readSector_apply _ hlba, Nat.add_assoc,
      Nat.add_right_inj]
  · rw [store32_of_apart _ _ (by omega), store16_of_apart _ _ (by omega)]

theorem updateEntry_eq {node : VfsNode} (h : OnSlot b d node f) (d' : Disk) (node' : VfsNode)
    (hlba : node'.dirLba = node.dirLba) (hindex : node'.dirIndex = node.dirIndex) :
    updateEntry d' node' = store32 (store16 d' (f + 26) node'.inode) (f + 28) node'.size := by
  rw [updateEntry_eq_store (by rw [hlba]; exact h.lba_lt) (by rw [hindex]; exact h.index_lt),
    hlba, hindex, h.addr]

theorem updateEntry_of_apart {node : VfsNode} (h : OnSlot b d node f) (d' : Disk)
    {node' : VfsNode} (hlba : node'.dirLba = node.dirLba)
    (hindex : node'.dirIndex = node.dirIndex) {x : ℕ} (hx : ¬ EntryTail f x) :
    updateEntry d' node' x = d' x := by
  unfold EntryTail at hx
  rw [updateEntry_eq h d' node' hlba hindex, store32_of_apart _ _ (by omega),
    store16_of_apart _ _ (by omega)]

theorem firstCluster_updateEntry {node : VfsNode} (h : OnSlot b d node f) (d' : Disk)
    (node' : VfsNode) (hlba : node'.dirLba = node.dirLba)
    (hindex : node'.dirIndex = node.dirIndex) (hinode : node'.inode < 65536) :
    firstCluster (entryAt (updateEntry d' node') f) = node'.inode := by
  rw [updateEntry_eq h d' node' hlba hindex]
  have hload : firstCluster (entryAt (store32 (store16 d' (f + 26) node'.inode) (f + 28)
      node'.size) f) = load16 (store16 d' (f + 26) node'.inode) (f + 26) := by
    rw [firstCluster, load16, load16, entryAt, entryAt, store32_of_apart _ _ (by omega),
      store32_of_apart _ _ (by omega)]
  rw [hload, load16_store16, Nat.mod_eq_of_lt hinode]

theorem fileSize_updateEntry {node : VfsNode} (h : OnSlot b d node f) (d' : Disk)
    (node' : VfsNode) (hlba : node'.dirLba = node.dirLba)
    (hindex : node'.dirIndex = node.dirIndex) (hsize : node'.size < 2 ^ 32) :
    fileSize (entryAt (updateEntry d' node') f) = node'.size := by
  rw [updateEntry_eq h d' node' hlba hindex]
  have hload : fileSize (entryAt (store32 (store16 d' (f + 26) node'.inode) (f + 28)
      node'.size) f) = load32 (store32 (store16 d' (f + 26) node'.inode) (f + 28)
      node'.size) (f + 28) := rfl
  rw [hload, load32_store32_of_lt _ _ hsize]

/-! ## The ways a call ends -/

/-- How `fat16_vfs_write` ends for a file with chain `l`: nothing to write, no first
cluster, no buffer, or `n` bytes written. -/
inductive WriteOutcome (b : Bpb) (top : ℕ) (d : Disk) (l : List ℕ) (node : VfsNode)
    (offset size : ℕ) (buf : Bytes) : ℤ → VfsNode → Disk → Prop
  | nothing (hsize : size = 0) : WriteOutcome b top d l node offset size buf 0 node d
  | full (hl : l = []) (hfull : Full b d) :
      WriteOutcome b top d l node offset size buf (-1) node d
  | noHeap {i : ℕ} {d' : Disk} {l' : List ℕ} (hgrown : Grown b top d l i d' l') (hmem : i ∈ l')
      (hsame : l ≠ [] → i = node.inode ∧ d' = d ∧ l' = l) :
      WriteOutcome b top d l node offset size buf (-1) { node with inode := i } d'
  | written {i n : ℕ} {d' : Disk} {l' : List ℕ} (hsize : 0 < size)
      (hsame : l ≠ [] → i = node.inode)
      (hwrote : Wrote b top d l i offset 0 n buf d' l') (hmem : i ∈ l') (hn : n ≤ size)
      (hshort : n < size → Full b d' ∧ l'.length * b.clusterBytes ≤ offset + n) :
      WriteOutcome b top d l node offset size buf (toInt n)
        { node with inode := i, size := max node.size (offset + n) }
        (updateEntry d' { node with inode := i, size := max node.size (offset + n) })

/-- The part of a call after the first cluster is there. -/
theorem writeOutcome_of_chain (hb : Geometry b top) {node : VfsNode} {offset size n : ℕ}
    {buf cbuf : Bytes} (hoff : offset + size < 2 ^ 32) (hsize : 0 < size) {d₁ : Disk}
    {l₁ : List ℕ} (hgrown : Wrote b top d l i offset 0 0 buf d₁ l₁) (hmem : i ∈ l₁)
    (hsame : l ≠ [] → i = node.inode) (hfree : FreeBelow b top d₁)
    (hrun : writeLoop b i offset size buf size 0 cbuf d₁ = some (n, d')) :
    WriteOutcome b top d l node offset size buf (toInt n)
      { node with inode := i, size := max node.size ((offset + n) % 2 ^ 32) }
      (updateEntry d' { node with inode := i, size := max node.size ((offset + n) % 2 ^ 32) }) := by
  have hchain := hgrown.grown.chain
  have huse := hchain.inside_of_mem hmem
  obtain ⟨hn, l', hwrote, hshort⟩ :=
    writeLoop_spec hb hoff (huse.lt hb) hchain hmem hfree (Nat.zero_le size) hrun
  rw [Nat.mod_eq_of_lt (show offset + n < 2 ^ 32 by omega)]
  exact WriteOutcome.written hsize hsame (hgrown.trans hb hwrote)
    (hwrote.grown.isPrefix.subset hmem) hn hshort

/-- The start of a call that has bytes to write: the file has a chain, or gets its first
cluster, or there is none left. -/
theorem fat16VfsWrite_start {fs : Fs} {node : VfsNode} {size : ℕ} (offset : ℕ) (buf : Bytes)
    (hb : Geometry fs.bpb top) (hmounted : fs.mounted = true)
    (hfree : FreeBelow fs.bpb top fs.disk) (hl : FileChain fs.bpb top fs.disk node.inode l)
    (hinode : node.inode < 65536) (hsize : 0 < size) :
    (l = [] ∧ Full fs.bpb fs.disk ∧ fat16VfsWrite node offset size buf fs = some (-1, node, fs)) ∨
      ∃ i d₁ l₁, Wrote fs.bpb top fs.disk l i offset 0 0 buf d₁ l₁ ∧ i ∈ l₁ ∧
        (l ≠ [] → i = node.inode ∧ d₁ = fs.disk ∧ l₁ = l) ∧ FreeBelow fs.bpb top d₁ ∧
        fat16VfsWrite node offset size buf fs =
          (kmalloc fs.heapStart fs.bpb.clusterBytes fs.heap).bind fun (cbuf, heap) =>
            if cbuf = 0 then
              some ((-1 : ℤ), { node with inode := i }, { fs with disk := d₁, heap := heap })
            else
              (writeLoop fs.bpb i offset size buf size 0 (fun x => heap (cbuf + x)) d₁).map
                fun (n, d) =>
                  (toInt n,
                    { node with inode := i, size := max node.size ((offset + n) % 2 ^ 32) },
                    { fs with
                      disk := updateEntry d
                        { node with inode := i, size := max node.size ((offset + n) % 2 ^ 32) }
                      heap := kfree cbuf heap }) := by
  have hguard : ¬ (fs.mounted = false ∨ size = 0) := by
    rw [hmounted]
    exact fun h => h.elim Bool.noConfusion (by omega)
  rw [fat16VfsWrite, if_neg hguard, Nat.mod_eq_of_lt hinode]
  rcases hl.cases with ⟨hlt, rfl⟩ | ⟨htwo, hmem, hchain⟩
  · rw [if_pos hlt]
    rcases fatAllocCluster_cases hb hfree with ⟨hfull, halloc⟩ | ⟨c, hc, hzero, halloc⟩
    · rw [halloc]
      exact Or.inl ⟨rfl, hfull, rfl⟩
    · right
      have hne : c ≠ 0 := by
        have := hc.1
        omega
      have hgrown := grown_alloc hb hc hzero
      refine ⟨c, fatSetEntry fs.bpb fs.disk c 0xFFFF, [c], ⟨hgrown, le_rfl,
        fun h => absurd h (lt_irrefl 0), fun x hx hx' => by omega, fun x hx => by simp at hx⟩,
        List.mem_singleton.2 rfl, fun h => absurd rfl h, hgrown.freeBelow hfree, ?_⟩
      rw [halloc]
      simp only [hne, if_false]
  · right
    refine ⟨node.inode, fs.disk, l, Wrote.refl hchain 0, hmem, fun _ => ⟨rfl, rfl, rfl⟩, hfree, ?_⟩
    have hne : node.inode ≠ 0 := by omega
    rw [if_neg (by omega)]
    simp only [hne, if_false]

/-- Every call of `fat16_vfs_write` on a file with chain `l` that returns, returns in
one of the four ways. -/
theorem fat16VfsWrite_cases {fs fs' : Fs} {node node' : VfsNode} {offset size : ℕ} {buf : Bytes}
    {ret : ℤ} (hb : Geometry fs.bpb top) (hmounted : fs.mounted = true)
    (hfree : FreeBelow fs.bpb top fs.disk) (hl : FileChain fs.bpb top fs.disk node.inode l)
    (hinode : node.inode < 65536) (hoff : offset + size < 2 ^ 32)
    (hrun : fat16VfsWrite node offset size buf fs = some (ret, node', fs')) :
    WriteOutcome fs.bpb top fs.disk l node offset size buf ret node' fs'.disk ∧
      fs'.bpb = fs.bpb ∧ fs'.mounted = true := by
  rcases Nat.eq_zero_or_pos size with hzero | hpos
  · rw [fat16VfsWrite, if_pos (Or.inr hzero)] at hrun
    simp only [Option.some.injEq, Prod.mk.injEq] at hrun
    obtain ⟨rfl, rfl, rfl⟩ := hrun
    exact ⟨.nothing hzero, rfl, hmounted⟩
  rcases fat16VfsWrite_start offset buf hb hmounted hfree hl hinode hpos with
    ⟨rfl, hfull, heq⟩ | ⟨i, d₁, l₁, hwrote, hmem, hsame, hfree₁, heq⟩
  · rw [heq] at hrun
    simp only [Option.some.injEq, Prod.mk.injEq] at hrun
    obtain ⟨rfl, rfl, rfl⟩ := hrun
    exact ⟨.full rfl hfull, rfl, hmounted⟩
  · rw [heq] at hrun
    obtain ⟨⟨cbuf, heap⟩, -, hrun⟩ := Option.bind_eq_some_iff.1 hrun
    dsimp only at hrun
    split_ifs at hrun
    · simp only [Option.some.injEq, Prod.mk.injEq] at hrun
      obtain ⟨rfl, rfl, rfl⟩ := hrun
      exact ⟨.noHeap hwrote.grown hmem hsame, rfl, hmounted⟩
    · obtain ⟨⟨n, d'⟩, hloop, hrun⟩ := Option.map_eq_some_iff.1 hrun
      simp only [Prod.mk.injEq] at hrun
      obtain ⟨rfl, rfl, rfl⟩ := hrun
      exact ⟨writeOutcome_of_chain hb hoff hpos hwrote hmem (fun hne => (hsame hne).1) hfree₁
        hloop, rfl, hmounted⟩

theorem frame_updateEntry (hb : Geometry b top) (hs : Sound b top d first) {node : VfsNode}
    (h : OnSlot b d node f) (d' : Disk) (node' : VfsNode) (hlba : node'.dirLba = node.dirLba)
    (hindex : node'.dirIndex = node.dirIndex) (S : ℕ → Prop) :
    Frame b d' (updateEntry d' node') S (EntryTail f) where
  fat k hk _ := by
    refine fatAt_congr hb hk fun x hx => ?_
    have hroot := (h.live.dirByte (show 0 < 32 by omega)).rootAddr_le hb hs
    refine updateEntry_of_apart h d' hlba hindex fun hin => ?_
    have := hin.1
    omega
  bytes x _ _ hx := updateEntry_of_apart h d' hlba hindex hx

theorem regrown_refl (hs : Sound b top d first) {node : VfsNode} (hn : OnSlot b d node f)
    (hinode : node.inode = first f) (hl : FileChain b top d (first f) l) :
    Regrown b top d l f node.inode d l :=
  ⟨fun _ hc => Or.inl hc, hinode ▸ hl, Frame.refl b d _ _,
    fun htwo => hinode.trans (hs.onDisk f hn.owner htwo)⟩

/-- The chain was extended and nothing else happened. -/
theorem regrown_grown (hb : Geometry b top) (hs : Sound b top d first) {node : VfsNode}
    (hn : OnSlot b d node f) (hinode : node.inode = first f)
    (hl : FileChain b top d (first f) l) (hgrown : Grown b top d l i d' l') (hmem : i ∈ l')
    (hsame : l ≠ [] → i = node.inode) : Regrown b top d l f i d' l' := by
  have huse := hgrown.chain.inside_of_mem hmem
  have hprivate : Private b top d first (· ∈ l') := fun c hc =>
    ⟨hgrown.chain.inside_of_mem hc, (hgrown.fresh c hc).symm.imp_right
      fun hcl => ⟨f, l, hn.owner, hn.file, hl, hcl⟩⟩
  have hentry : ∀ x < 32, entryAt d' f x = entryAt d f x := fun x hx =>
    hgrown.frame.dirByte_eq hb hs hprivate (hn.live.dirByte hx) id
  refine ⟨hgrown.fresh, (fileChain_of_two_le huse.1).2 ⟨List.ne_nil_of_mem hmem, hgrown.chain⟩,
    hgrown.frame.mono (fun _ hc => hc) fun _ => False.elim, fun htwo => ?_⟩
  rw [firstCluster_congr hentry] at htwo ⊢
  have hdisk := hs.onDisk f hn.owner htwo
  have hne : l ≠ [] := by
    rintro rfl
    rcases hl.cases with ⟨hlt, -⟩ | ⟨-, hmem', -⟩
    · omega
    · cases hmem'
  exact (hsame hne).trans (hinode.trans hdisk)

/-- The chain was extended and the directory entry updated. -/
theorem regrown_updateEntry (hb : Geometry b top) (hs : Sound b top d first)
    {node node' : VfsNode} (hn : OnSlot b d node f) (hgrown : Grown b top d l node'.inode d' l')
    (hmem : node'.inode ∈ l') (hlba : node'.dirLba = node.dirLba)
    (hindex : node'.dirIndex = node.dirIndex) :
    Regrown b top d l f node'.inode (updateEntry d' node') l' := by
  have huse := hgrown.chain.inside_of_mem hmem
  have hframe := frame_updateEntry hb hs hn d' node' hlba hindex
  refine ⟨hgrown.fresh, ?_, (hgrown.frame.mono (fun _ hc => hc) fun _ => False.elim).trans
    (hframe (· ∈ l')), fun _ => (firstCluster_updateEntry hn d' node' hlba hindex
      (huse.lt hb)).symm⟩
  refine FileChain.congr ((fileChain_of_two_le huse.1).2
    ⟨List.ne_nil_of_mem hmem, hgrown.chain⟩) fun x hx => ?_
  exact (hframe fun _ => False).fat x ((hgrown.chain.inside_of_mem hx).lt_table hb) id

/-- However the call ends, it regrew the file of its node. -/
theorem WriteOutcome.regrown (hb : Geometry b top) (hs : Sound b top d first)
    {node node' : VfsNode} {offset size : ℕ} {buf : Bytes} {ret : ℤ} (hn : OnSlot b d node f)
    (hinode : node.inode = first f) (hl : FileChain b top d (first f) l)
    (h : WriteOutcome b top d l node offset size buf ret node' d') :
    ∃ l', Regrown b top d l f node'.inode d' l' ∧ node'.dirLba = node.dirLba ∧
      node'.dirIndex = node.dirIndex := by
  cases h with
  | nothing => exact ⟨l, regrown_refl hs hn hinode hl, rfl, rfl⟩
  | full => exact ⟨l, regrown_refl hs hn hinode hl, rfl, rfl⟩
  | noHeap hgrown hmem hsame =>
      exact ⟨_, regrown_grown hb hs hn hinode hl hgrown hmem fun hne => (hsame hne).1, rfl, rfl⟩
  | written _ _ hwrote hmem =>
      exact ⟨_, regrown_updateEntry hb hs hn hwrote.grown hmem rfl rfl, rfl, rfl⟩

/-- The node after the call still stands for its slot. -/
theorem OnSlot.of_sameTree (hb : Geometry b top) (hs : Sound b top d first)
    {node node' : VfsNode} (hn : OnSlot b d node f) (htree : SameTree b d d' f)
    (hlba : node'.dirLba = node.dirLba) (hindex : node'.dirIndex = node.dirIndex)
    (hinode : node'.inode < 65536) (hsize : node'.size < 2 ^ 32) : OnSlot b d' node' f where
  live := (htree.liveEntry_iff hb hs).2 hn.live
  file := by
    rw [isDirectory_congr (htree.liveEntry_head hn.live)]
    exact hn.file
  addr := by
    rw [hlba, hindex]
    exact hn.addr
  lba_lt := hlba ▸ hn.lba_lt
  index_lt := hindex ▸ hn.index_lt
  inode_lt := hinode
  size_lt := hsize

theorem WriteOutcome.size_lt {node node' : VfsNode} {offset size : ℕ} {buf : Bytes} {ret : ℤ}
    (hnode : node.size < 2 ^ 32) (hoff : offset + size < 2 ^ 32)
    (h : WriteOutcome b top d l node offset size buf ret node' d') : node'.size < 2 ^ 32 := by
  cases h with
  | nothing => exact hnode
  | full => exact hnode
  | noHeap => exact hnode
  | written _ _ _ _ hn =>
      refine Nat.max_lt.2 ⟨hnode, ?_⟩
      omega

theorem FileChain.first_lt (hb : Geometry b top) (h : FileChain b top d i l) : i < 65536 := by
  rcases h.cases with ⟨hlt, -⟩ | ⟨-, hmem, -⟩
  · omega
  · exact (h.inUse hmem).lt hb

end Fat16

end Yotos
