import Yotos.Fat16.Losses

/-!
# Calls with failing reads

The two calls as a whole. The directory slot that a call fills is one of its directory, or
none: a failing read ends the walk along the directory's chain, but leads it nowhere else.
-/

namespace Yotos

namespace Fat16

open Bytes Kheap Library

namespace Faulty

variable {b : Bpb} {d₀ d : Disk} {l : List ℕ} {slot c n lba i dir : ℕ} {s : Drive}
  {faults : ℕ → Bool} {F : Set ℕ} {buf : Bytes}

/-! ## The slot -/

theorem fill_sat {a : ℕ} : (Traced.note [Event.fill a] () s).Sat (losses b d₀ l slot) fun _ s' =>
    s' = s ∧ a = slot := by
  refine Traced.Sat.note fun hgiven => Or.inl ⟨fun e he => ?_, rfl, hgiven (.fill a) (by simp)⟩
  obtain rfl := List.mem_singleton.1 he
  exact ⟨trivial, trivial⟩

/-- The sector of the slot is written back. -/
theorem slot_sat (hset : Setting b d₀ l) (h : Good b d₀ l slot F s.disk)
    (hslot : 512 * lba + 32 * i = slot) (hi : i < 16) (hroot : b.rootDirLba ≤ lba)
    (hlba : lba < 2 ^ 28) {failed : Bool}
    (hout : ∀ y < 512, y < 32 * i ∨ 32 * i + 32 ≤ y →
      buf y = if failed then 0 else s.disk (512 * lba + y)) :
    (writeBack lba (32 * i) 32 failed buf s).Sat (losses b d₀ l slot) fun _ s' =>
      Good b d₀ l slot F s'.disk := by
  refine Traced.Sat.mono (writeBack_sat h.spares hlba (fun y hy hy' => ?_) hout) ?_
  · obtain ⟨x, rfl⟩ := Nat.exists_eq_add_of_le hy
    rw [← Nat.add_assoc, hslot]
    exact not_foreign_slot hset (by omega) (by omega) (by omega)
  · rintro _ s' ⟨hsp, heq⟩
    rw [heq] at hsp ⊢
    exact h.writeSector hset.layout hroot hlba hsp

theorem updateEntry_sat (hset : Setting b d₀ l) (h : Good b d₀ l slot F s.disk) {node : VfsNode}
    (hi : node.dirIndex < 16) (hroot : b.rootDirLba ≤ node.dirLba)
    (hlba : node.dirLba < 2 ^ 28) :
    (updateEntry faults node s).Sat (losses b d₀ l slot) fun _ s' =>
      Good b d₀ l slot F s'.disk := by
  rw [updateEntry, ataReadSector_bind]
  refine Traced.Sat.bind fill_sat fun _ s₁ h₁ => ?_
  obtain ⟨rfl, hslot⟩ := h₁
  refine slot_sat hset (by exact h) hslot hi hroot hlba fun y _ hyx => ?_
  rw [store32_of_apart _ _ (by omega), store16_of_apart _ _ (by omega)]
  dsimp only
  split_ifs
  · rfl
  · exact readSector_apply s.disk hlba y

/-! ## The directory -/

/-- A link that could not be read is followed by nothing. -/
theorem skipClusters_sat (K : Contract Event) :
    (skipClusters faults b n c s).Sat K fun r s' => s'.disk = s.disk ∧
      (r = none ∨ r = some 0 ∨ r = Fat16.skipClusters b s.disk n c) := by
  induction n generalizing c s with
  | zero => exact Traced.Sat.ret ⟨rfl, Or.inr (Or.inr rfl)⟩
  | succ n ih =>
      rw [skipClusters, Fat16.skipClusters]
      split_ifs with hc
      swap
      · exact Traced.Sat.ret ⟨rfl, Or.inl rfl⟩
      have hlt : c < 65536 := by
        have := isCluster_iff.1 hc
        omega
      refine Traced.Sat.bind (fatEntry_sat K hlt) fun next s₁ h₁ => ?_
      obtain ⟨hdisk, hnext⟩ := h₁
      refine Traced.Sat.mono ih ?_
      intro r s' hr
      obtain ⟨hdisk', hr⟩ := hr
      refine ⟨hdisk'.trans hdisk, ?_⟩
      rcases hnext with rfl | rfl
      · cases n with
        | zero =>
            rcases hr with hr | hr | hr
            · exact Or.inl hr
            · exact Or.inr (Or.inl hr)
            · exact Or.inr (Or.inl hr)
        | succ n =>
            rcases hr with hr | hr | hr
            · exact Or.inl hr
            · exact Or.inr (Or.inl hr)
            · exact Or.inl hr
      · rw [hdisk] at hr
        rw [fatEntry_eq hlt]
        exact hr

/-- The sector is the right one, or the directory seems to end. -/
theorem dirSectorLba_sat (K : Contract Event) :
    (dirSectorLba faults b dir n s).Sat K fun lba s' => s'.disk = s.disk ∧
      (lba = 0 ∨ lba = Fat16.dirSectorLba b s.disk dir n) := by
  rw [dirSectorLba, Fat16.dirSectorLba]
  split_ifs
  · exact Traced.Sat.ret ⟨rfl, Or.inl rfl⟩
  · exact Traced.Sat.ret ⟨rfl, Or.inr rfl⟩
  · refine Traced.Sat.bind (skipClusters_sat K) fun r s₁ h₁ => ?_
    obtain ⟨hdisk, rfl | rfl | rfl⟩ := h₁
    · exact Traced.Sat.ret ⟨hdisk, Or.inl rfl⟩
    · exact Traced.Sat.ret ⟨hdisk, Or.inl rfl⟩
    · exact Traced.Sat.ret ⟨hdisk, Or.inr rfl⟩

/-- A scan returns at a slot of the directory, with the buffer of its sector. -/
theorem scanDir_sat (K : Contract Event) {α : Type*}
    {visit : (lba : ℕ) → ℕ → Bytes → Unit → Visit Unit α} {fuel : ℕ} :
    (scanDir faults b dir visit fuel n s).Sat K fun r s' => s'.disk = s.disk ∧
      ∀ a buf, r = some (a, buf) → ∃ m i e, Fat16.dirSectorLba b s.disk dir m ≠ 0 ∧ i < 16 ∧
        visit (Fat16.dirSectorLba b s.disk dir m) i e () = .done (some a) ∧
        buf.bytes = if buf.failed then fun _ => 0
          else readSector s.disk (Fat16.dirSectorLba b s.disk dir m) := by
  induction fuel generalizing n s with
  | zero => exact Traced.Sat.lift fun _ h => by cases h
  | succ fuel ih =>
      rw [scanDir]
      refine Traced.Sat.bind (dirSectorLba_sat K) fun lba s₁ h₁ => ?_
      obtain ⟨hdisk, hlba⟩ := h₁
      split_ifs with hend
      · exact Traced.Sat.ret ⟨hdisk, fun a buf h => by cases h⟩
      obtain rfl := hlba.resolve_left hend
      rw [ataReadSector_bind]
      dsimp only
      cases hsector : scanSector (visit (Fat16.dirSectorLba b s.disk dir n))
          (if faults s₁.reads then fun _ => 0
            else readSector s₁.disk (Fat16.dirSectorLba b s.disk dir n)) 16 0 () with
      | next _ =>
          refine Traced.Sat.mono ih ?_
          intro r s' hr
          obtain ⟨hdisk', hr⟩ := hr
          dsimp only at hdisk' hr
          rw [hdisk] at hr
          exact ⟨hdisk'.trans hdisk, hr⟩
      | done a =>
          refine Traced.Sat.ret ⟨hdisk, fun a' buf h => ?_⟩
          cases a with
          | none => cases h
          | some a =>
              obtain ⟨rfl, rfl⟩ := Prod.mk.inj (Option.some.inj h)
              obtain ⟨i, _, -, hi, hdone⟩ := scanSector_returned hsector
              rw [← hdisk]
              exact ⟨n, i, _, by rwa [hdisk], by omega, by rwa [hdisk], rfl⟩

/-- The directory has its sectors still. -/
theorem Good.dirSectorLba_eq (hset : Setting b d₀ l) (h : Good b d₀ l slot F d)
    (hdir : IsDir b d₀ dir) (n : ℕ) :
    Fat16.dirSectorLba b d dir n = Fat16.dirSectorLba b d₀ dir n := by
  obtain ⟨m, hm, -⟩ := hset.dirs dir hdir
  exact dirSectorLba_congr hset.layout.geometry hm
    (fun x hx => h.spares.entry x (hset.taken hdir hm hx)) n

/-- They lie behind the table. -/
theorem Setting.dirSector (hset : Setting b d₀ l) (hdir : IsDir b d₀ dir)
    (hn : Fat16.dirSectorLba b d₀ dir n ≠ 0) :
    b.rootDirLba ≤ Fat16.dirSectorLba b d₀ dir n ∧ Fat16.dirSectorLba b d₀ dir n < 2 ^ 28 := by
  obtain ⟨m, hm, -⟩ := hset.dirs dir hdir
  refine ⟨?_, dirSectorLba_lt hset.layout.spc_pos d₀ dir n⟩
  have hroot : b.rootDirLba ≤ b.dataLba := Nat.le_add_right _ _
  rcases dirSectorLba_cases hset.layout.geometry hm hn with ⟨-, heq, -⟩ | ⟨c, hc, -, heq⟩
  · omega
  · have huse := hm.inUse (List.mem_of_getElem? hc)
    have := b.clusterLba_of_two_le huse.1 (huse.lt hset.layout.geometry)
    omega

theorem fat16WriteDirEntry_sat (hset : Setting b d₀ l) (h : Good b d₀ l slot F s.disk)
    (hdir : IsDir b d₀ dir) {fuel first size : ℕ} {name : List UInt8} {attr : UInt8} :
    (fat16WriteDirEntry faults fuel b dir name first size attr s).Sat (losses b d₀ l slot)
      fun _ s' => Good b d₀ l slot F s'.disk := by
  rw [fat16WriteDirEntry]
  cases formatName83 name with
  | none => exact Traced.Sat.ret h
  | some p =>
      dsimp only
      refine Traced.Sat.bind (scanDir_sat _) fun r s₁ h₁ => ?_
      obtain ⟨hdisk, hr⟩ := h₁
      rw [← hdisk] at h
      rcases r with _ | ⟨⟨lba, i⟩, buf⟩
      · exact Traced.Sat.ret h
      obtain ⟨m, j, e, hm, hj, hvisit, hbuf⟩ := hr _ _ rfl
      rw [freeSlotVisit_eq] at hvisit
      split_ifs at hvisit
      obtain ⟨rfl, rfl⟩ := Prod.mk.inj (Option.some.inj (Visit.done.inj hvisit))
      rw [← hdisk, h.dirSectorLba_eq hset hdir] at hm hbuf ⊢
      obtain ⟨hroot, hlba⟩ := hset.dirSector hdir hm
      refine Traced.Sat.bind fill_sat fun _ s₂ h₂ => ?_
      obtain ⟨rfl, hslot⟩ := h₂
      refine Traced.Sat.bind (slot_sat hset h hslot hj hroot hlba fun y _ hyx => ?_)
        fun _ s₃ h₃ => Traced.Sat.ret h₃
      rw [copy_of_apart _ _ _ hyx, hbuf]
      split_ifs
      · rfl
      · exact readSector_apply s₂.disk hlba y

/-! ## The calls -/

theorem fat16VfsWrite_sat {fs : Fs} (hset : Setting fs.bpb d₀ l)
    (h : Good fs.bpb d₀ l slot F s.disk) {node : VfsNode} {offset size : ℕ}
    (hinode : 2 ≤ node.inode → node.inode ∈ F) (hlt : node.inode < 65536)
    (hi : node.dirIndex < 16) (hroot : fs.bpb.rootDirLba ≤ node.dirLba)
    (hlba : node.dirLba < 2 ^ 28) :
    (fat16VfsWrite faults node offset size buf fs s).Sat (losses fs.bpb d₀ l slot)
      fun _ _ => True := by
  rw [fat16VfsWrite]
  by_cases hguard : fs.mounted = false ∨ size = 0
  · rw [if_pos hguard]
    exact Traced.Sat.ret trivial
  rw [if_neg hguard]
  have hfirst : (if node.inode % 65536 < 2 then fatAllocCluster faults fs.bpb s
      else .ret node.inode s).Sat (losses fs.bpb d₀ l slot) fun c s' =>
        c ≠ 0 → ∃ F', c % 65536 ∈ F' ∧ Good fs.bpb d₀ l slot F' s'.disk := by
    split_ifs with hnone
    · refine Traced.Sat.mono (fatAllocCluster_sat hset h) ?_
      rintro c s' (⟨hzero, -⟩ | ⟨-, hgood⟩) hne
      · exact absurd hzero hne
      · have hin := Set.mem_insert c F
        refine ⟨_, ?_, hgood⟩
        rwa [Nat.mod_eq_of_lt (hgood.mine c hin).2.1]
    · rw [Nat.mod_eq_of_lt hlt] at hnone
      refine Traced.Sat.ret fun _ => ⟨F, ?_, h⟩
      rw [Nat.mod_eq_of_lt hlt]
      exact hinode (by omega)
  refine Traced.Sat.bind hfirst fun inode s₁ h₁ => ?_
  split_ifs with hzero
  · exact Traced.Sat.ret trivial
  obtain ⟨F', hin, hgood⟩ := h₁ hzero
  refine Traced.Sat.bind (Traced.Sat.lift (P := fun _ s => Good fs.bpb d₀ l slot F' s.disk)
    fun _ _ => hgood) fun p s₂ h₂ => ?_
  split_ifs
  · exact Traced.Sat.ret trivial
  refine Traced.Sat.bind (writeLoop_sat hset h₂ hin) fun _ s₃ h₃ => ?_
  obtain ⟨F'', hgood'⟩ := h₃
  exact Traced.Sat.bind (updateEntry_sat hset hgood' hi hroot hlba) fun _ s₄ _ =>
    Traced.Sat.ret trivial

theorem initDirCluster_sat (hset : Setting b d₀ l) (h : Good b d₀ l slot F s.disk) (hc : c ∈ F)
    {parent : ℕ} :
    (initDirCluster b c parent s).Sat (losses b d₀ l slot) fun _ s' =>
      Good b d₀ l slot F s'.disk := by
  refine Traced.Sat.bind (writeSectors_sat hset h hc le_rfl) fun _ s₁ h₁ => ?_
  have hspc := hset.layout.spc_pos
  exact ataWriteSector_good (n := 0) hset h₁ hc (by omega)

theorem fatFreeChain_sat (hset : Setting b d₀ l) (h : Good b d₀ l slot F s.disk)
    (hc : isCluster c = true → c ∈ F) {fuel : ℕ} :
    (fatFreeChain faults b fuel c s).Sat (losses b d₀ l slot) fun _ _ => True := by
  induction fuel generalizing c s with
  | zero => exact Traced.Sat.lift fun _ _ => trivial
  | succ fuel ih =>
      rw [fatFreeChain]
      split_ifs with hcluster
      swap
      · exact Traced.Sat.ret trivial
      obtain ⟨-, hlt, htable, hfree⟩ := h.mine c (hc hcluster)
      refine Traced.Sat.bind (fatEntry_sat _ hlt) fun next s₁ h₁ => ?_
      obtain ⟨hdisk, hnext⟩ := h₁
      have hin : isCluster next = true → next ∈ F := fun hn => by
        rcases hnext with rfl | rfl
        · cases hn
        · exact h.next c (hc hcluster) hn
      rw [← hdisk] at h
      refine Traced.Sat.bind (fatSetEntry_good hset h hlt htable hfree (by simp)
        fun _ hzero => by cases hzero) fun _ s₂ h₂ => ?_
      exact ih h₂.1 hin

theorem fat16VfsFinddir_sat (K : Contract Event) {fuel : ℕ} {node : VfsNode}
    {name : List UInt8} {fs : Fs} :
    (fat16VfsFinddir faults fuel node name fs s).Sat K fun _ _ => True := by
  rw [fat16VfsFinddir]
  split_ifs
  swap
  · exact Traced.Sat.ret trivial
  refine Traced.Sat.bind (scanDir_sat K) fun found s₁ _ => ?_
  rcases found with _ | ⟨⟨e, lba, i⟩, buf⟩
  · exact Traced.Sat.ret trivial
  · exact Traced.Sat.bind (Traced.Sat.lift (P := fun _ _ => True) fun _ _ => trivial)
      fun _ _ _ => Traced.Sat.ret trivial

theorem fat16VfsCreate_sat {fs : Fs} (hset : Setting fs.bpb d₀ l)
    (h : Good fs.bpb d₀ l slot F s.disk) {node : VfsNode} (hdir : IsDir fs.bpb d₀ node.inode)
    {fuel : ℕ} {name : List UInt8} {flags : UInt32} :
    (fat16VfsCreate faults fuel node name flags fs s).Sat (losses fs.bpb d₀ l slot)
      fun _ _ => True := by
  rw [fat16VfsCreate]
  split_ifs
  · refine Traced.Sat.bind (fatAllocCluster_sat hset h) fun c s₁ h₁ => ?_
    split_ifs with hzero
    · exact Traced.Sat.ret trivial
    rcases h₁ with ⟨hc, -⟩ | ⟨-, hgood⟩
    · exact absurd hc hzero
    have hin := Set.mem_insert c F
    refine Traced.Sat.bind (initDirCluster_sat hset hgood hin) fun _ s₂ h₂ => ?_
    refine Traced.Sat.bind (fat16WriteDirEntry_sat hset h₂ hdir) fun ok s₃ h₃ => ?_
    split_ifs
    · exact fat16VfsFinddir_sat _
    · exact Traced.Sat.bind (fatFreeChain_sat hset h₃ fun _ => hin) fun _ _ _ =>
        Traced.Sat.ret trivial
  · refine Traced.Sat.bind (fat16WriteDirEntry_sat hset h hdir) fun ok s₁ h₁ => ?_
    split_ifs
    · exact fat16VfsFinddir_sat _
    · exact Traced.Sat.ret trivial
  · exact Traced.Sat.ret trivial

/-- A call of one of the operations that change the volume. -/
inductive Call
  | write (node : VfsNode) (offset size : ℕ) (buf : Bytes)
  | create (node : VfsNode) (name : List UInt8) (flags : UInt32)

/-- The log of a call on the mounted volume. -/
def Call.log (faults : ℕ → Bool) (fuel : ℕ) (fs : Fs) : Call → List Event
  | .write node offset size buf =>
      (fat16VfsWrite faults node offset size buf fs ⟨fs.disk, 0⟩).log
  | .create node name flags => (fat16VfsCreate faults fuel node name flags fs ⟨fs.disk, 0⟩).log

/-- The call is for a file of the volume, with the chain `l`, or for a directory. -/
def Call.Fits (fs : Fs) (first : ℕ → ℕ) (l : List ℕ) : Call → Prop
  | .write node _ _ _ => ∃ f, OnSlot fs.bpb fs.disk node f ∧ node.inode = first f ∧
      FileChain fs.bpb (clusterTop fs.bpb) fs.disk (first f) l
  | .create node _ _ => IsDir fs.bpb fs.disk node.inode ∧ l = []

/-- The call meets the contract. -/
theorem Call.sat {fs : Fs} {first : ℕ → ℕ} {fuel : ℕ} {call : Call} (hb : Layout fs.bpb)
    (hs : Sound fs.bpb (clusterTop fs.bpb) fs.disk first) (hcall : call.Fits fs first l)
    (hgiven : ∀ e ∈ call.log faults fuel fs, (losses fs.bpb fs.disk l slot).given e) :
    (∀ e ∈ call.log faults fuel fs, (losses fs.bpb fs.disk l slot).ensures e) ↔
      ∀ e ∈ call.log faults fuel fs, (losses fs.bpb fs.disk l slot).check e := by
  cases call with
  | write node offset size buf =>
      obtain ⟨f, hf, hinode, hl⟩ := hcall
      have hset : Setting fs.bpb fs.disk l := by
        refine ⟨hb, hs.free, fun dir hdir => ?_⟩
        obtain ⟨m, hm, hsource⟩ := hs.exists_dirChain hdir
        refine ⟨m, hm, fun c hc hcl => ?_⟩
        obtain ⟨a, ha, hisDir, hma⟩ := hsource c hc
        have hne : a ≠ f := by
          rintro rfl
          rw [hf.file] at hisDir
          cases hisDir
        exact hs.disjoint a f m l ha hf.owner hne hma hl hc hcl
      have hgood : Good fs.bpb fs.disk l slot {c | c ∈ l} fs.disk := by
        refine ⟨spares_refl, fun _ _ _ => rfl, fun c hc => ?_, fun c hc hnext => ?_⟩
        · have huse := hl.inUse hc
          exact ⟨huse.1, huse.lt hb.geometry, huse.lt_table hb.geometry, fun htaken =>
            htaken.2.2 hc⟩
        · rcases hl.cases with ⟨-, rfl⟩ | ⟨-, -, hchain⟩
          · cases hc
          · rcases hchain.next_mem_or_stop hc with hin | hmark
            · exact hin
            · rw [isCluster_of_endMark hmark] at hnext
              cases hnext
      have hfirst : 2 ≤ node.inode → node.inode ∈ l := by
        intro htwo
        rcases hl.cases with ⟨hlt, -⟩ | ⟨-, hmem, -⟩
        · omega
        · rwa [hinode]
      have hroot : fs.bpb.rootDirLba ≤ node.dirLba := by
        have hindex := hf.index_lt
        have haddr := (hf.live.dirByte (x := 0) (by omega)).rootAddr_le hb.geometry hs
        rw [hf.addr] at haddr
        omega
      exact (fat16VfsWrite_sat hset hgood hfirst hf.inode_lt hf.index_lt hroot
        hf.lba_lt).ensures_iff hgiven
  | create node name flags =>
      obtain ⟨hdir, rfl⟩ := hcall
      have hset : Setting fs.bpb fs.disk [] := by
        refine ⟨hb, hs.free, fun dir hdir => ?_⟩
        obtain ⟨m, hm, -⟩ := hs.exists_dirChain hdir
        exact ⟨m, hm, fun _ _ => List.not_mem_nil⟩
      have hgood : Good fs.bpb fs.disk [] slot ∅ fs.disk :=
        ⟨spares_refl, fun _ _ _ => rfl, fun _ hc => absurd hc (Set.notMem_empty _),
          fun _ hc => absurd hc (Set.notMem_empty _)⟩
      exact (fat16VfsCreate_sat hset hgood hdir).ensures_iff hgiven

/-- While no cluster in use is taken for free after a failed read, the table entries in use
and the other directory slots are kept on every disk of the call exactly when no sector with
a byte of them that is not zero is written back after a failed read. -/
theorem spares_iff_not_loses (faults : ℕ → Bool) (fuel : ℕ) (fs : Fs) (first : ℕ → ℕ)
    (call : Call) (l : List ℕ) (slot : ℕ) (hb : Layout fs.bpb)
    (hs : Sound fs.bpb (clusterTop fs.bpb) fs.disk first) (hcall : call.Fits fs first l)
    (hfill : ∀ a, .fill a ∈ call.log faults fuel fs → a = slot)
    (hoffer : ∀ c, .offer c ∈ call.log faults fuel fs → ¬ Taken fs.bpb fs.disk l c) :
    (∀ d, .wrote d ∈ call.log faults fuel fs → Spares fs.bpb fs.disk l slot d) ↔
      ∀ lba x n, .blind lba x n ∈ call.log faults fuel fs →
        ¬ Loses fs.bpb fs.disk l slot lba x n := by
  have hsat := Call.sat hb hs hcall fun e he => by
    cases e with
    | wrote d => trivial
    | blind lba x n => trivial
    | offer c => exact hoffer c he
    | fill a => exact hfill a he
  constructor
  · intro h lba x n he
    refine hsat.1 (fun e he => ?_) _ he
    cases e with
    | wrote d => exact h d he
    | blind lba x n => trivial
    | offer c => trivial
    | fill a => trivial
  · intro h d hd
    refine hsat.2 (fun e he => ?_) _ hd
    cases e with
    | wrote d => trivial
    | blind lba x n => exact h lba x n he
    | offer c => trivial
    | fill a => trivial

/-- The numbers of an event, for the test below. -/
def Event.numbers : Event → List ℕ
  | .wrote _ => [0]
  | .blind lba x n => [1, lba, x, n]
  | .offer c => [2, c]
  | .fill a => [3, a]

/-- The directory `B` next to the file `A`, where the second read fails: the first one found
cluster 3, and the sector goes back without the end mark of `A`. -/
theorem not_spares_small :
    ¬ ∀ d, .wrote d ∈ (Call.create fat16RootNode [0x42] vfsDir).log (fun k => k == 1) 5
        (mountedFs (smallVolume 2 1 0)) →
      Spares (mountedFs (smallVolume 2 1 0)).bpb (smallVolume 2 1 0) [] 1056 d := by
  have hbpb := mountedFs_smallVolume 2 1 0
  have hwf : WellFormed smallBpb (clusterTop smallBpb) (smallVolume 2 1 0) :=
    wellFormed_small layout_small.geometry (by decide) (Or.inr rfl)
  have hs := hwf.sound fun k hk hdata => lt_min hdata.2.2 hk
  have hlog : ((Call.create fat16RootNode [0x42] vfsDir).log (fun k => k == 1) 5
      (mountedFs (smallVolume 2 1 0))).map Event.numbers =
        [[0], [1, 1, 6, 2], [0], [0], [3, 1056], [0]] := by
    decide +kernel
  have hblind : .blind 1 6 2 ∈ (Call.create fat16RootNode [0x42] vfsDir).log (fun k => k == 1) 5
      (mountedFs (smallVolume 2 1 0)) := by
    have hin : [1, 1, 6, 2] ∈ [[0], [1, 1, 6, 2], [0], [0], [3, 1056], [0]] := by simp
    obtain ⟨e, he, hnumbers⟩ := List.mem_map.1 (hlog.symm ▸ hin)
    cases e <;> simp [Event.numbers] at hnumbers
    obtain ⟨rfl, rfl, rfl⟩ := hnumbers
    exact he
  have hiff := spares_iff_not_loses (fun k => k == 1) 5 (mountedFs (smallVolume 2 1 0)) _
    (.create fat16RootNode [0x42] vfsDir) [] 1056 (hbpb.symm ▸ layout_small) (hbpb.symm ▸ hs)
    ⟨IsDir.root, rfl⟩ (fun a ha => ?_) (fun c hc => ?_)
  · intro hall
    have h := hiff.1 hall
    -- the low byte of the end mark
    have htaken : Taken smallBpb (smallVolume 2 1 0) [] 2 :=
      ⟨⟨le_rfl, by decide⟩, by decide, List.not_mem_nil⟩
    refine h 1 6 2 hblind ⟨4, by decide, Or.inl (by decide), ?_, by decide⟩
    exact hbpb.symm ▸ Foreign.entry (i := 0) htaken (by decide)
  · have hin := List.mem_map_of_mem (f := Event.numbers) ha
    rw [hlog] at hin
    simpa [Event.numbers] using hin
  · have hin := List.mem_map_of_mem (f := Event.numbers) hc
    rw [hlog] at hin
    simp [Event.numbers] at hin

end Faulty

end Fat16

end Yotos
