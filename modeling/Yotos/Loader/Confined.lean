import Yotos.Loader.Image

/-!
# Staying in the user range

Whether a run of `elf_load` stays in the user range is decided by the program headers.
`Confined` says so of the segments that the loader comes to, and is the same as `Safe`
of its accesses. A run of a confined file keeps an image of the program at every step,
and no page outside of it changes.
-/

namespace Yotos

namespace Loader

open Bytes Library Library.Access Kheap
open Fat16 (Fs VfsNode)
open Vmm
open Pmm (used pmmngrAllocBlock)

variable {fs₀ : Fs} {bs₀ : List Block} {node : VfsNode} {content : Bytes} {k : Kernel}
  {d v top size max : ℕ} {s₀ s : Vmm} {ds es all : List (Access ℕ UInt8)} {ps : List ℕ}
  {taken : List (ℕ × ℕ)} {lost : List ℕ}

/-- Pages are mapped between 4 MiB and `top` only, and written only if they were mapped,
or are among `ps`. -/
def Safe (top : ℕ) : (ps : List ℕ) → List (Access ℕ UInt8) → Prop
  | _, [] => True
  | ps, .map v :: es => (0x400000 ≤ v ∧ v < top) ∧ Safe top (ps ++ [page v]) es
  | ps, .write v _ :: es => page v ∈ ps ∧ Safe top ps es

/-- The same of segments, after the pages `ps` were mapped. -/
def ConfinedFrom (top size : ℕ) : (ps : List ℕ) → List Phdr → Prop
  | _, [] => True
  | ps, ph :: phs =>
      (∀ v ∈ ph.pages, 0x400000 ≤ v ∧ v < top) ∧
        (∀ x < ph.extent size, page ((ph.pVaddr + x) % 2 ^ 32) ∈ ps ++ ph.pages.map page) ∧
        ConfinedFrom top size (ps ++ ph.pages.map page) phs

/-- The pages of every segment lie in the user range, below `top`, and each byte of a
segment lies in a page of this segment or an earlier one. -/
def Confined (top : ℕ) (content : Bytes) (size : ℕ) : Prop :=
  ConfinedFrom top size [] (segments content size)

instance : DecidablePred (ConfinedFrom top size ps) := by
  intro phs
  induction phs generalizing ps with
  | nil => exact instDecidableTrue
  | cons ph phs ih =>
      have := @ih (ps ++ ph.pages.map page)
      exact instDecidableAnd

instance : Decidable (Confined top content size) := inferInstanceAs (Decidable (ConfinedFrom ..))

theorem safe_append : Safe top ps (ds ++ es) ↔
    Safe top ps ds ∧ Safe top (ps ++ mappedPages ds) es := by
  induction ds generalizing ps with
  | nil =>
      rw [List.nil_append, show mappedPages [] = [] from rfl, List.append_nil]
      exact (iff_of_eq (true_and _)).symm
  | cons a ds ih =>
      cases a with
      | map v =>
          have hpages : mappedPages (.map v :: ds) = [page v] ++ mappedPages ds := rfl
          rw [List.cons_append, Safe, Safe, ih, hpages, List.append_assoc, and_assoc, and_assoc,
            and_assoc]
      | write v x =>
          rw [List.cons_append, Safe, Safe, ih, and_assoc]
          rfl

theorem safe_maps {vs : List ℕ} :
    Safe top ps (vs.map .map) ↔ ∀ v ∈ vs, 0x400000 ≤ v ∧ v < top := by
  induction vs generalizing ps with
  | nil => simp [Safe]
  | cons v vs ih => rw [List.map_cons, Safe, ih, List.forall_mem_cons]

theorem safe_writes {is : List ℕ} {vaddr : ℕ → ℕ} {byte : ℕ → UInt8} :
    Safe top ps (is.map fun i => .write (vaddr i) (byte i)) ↔ ∀ i ∈ is, page (vaddr i) ∈ ps := by
  induction is with
  | nil => simp [Safe]
  | cons i is ih => rw [List.map_cons, Safe, ih, List.forall_mem_cons]

theorem mappedPages_accesses (content : Bytes) (size : ℕ) (ph : Phdr) :
    mappedPages (ph.accesses content size) = ph.pages.map page := by
  rw [mappedPages, Phdr.accesses, mapped_append, mapped_map, Phdr.stores, mapped_write,
    List.append_nil]

theorem safe_accesses (ph : Phdr) : Safe top ps (ph.accesses content size) ↔
    (∀ v ∈ ph.pages, 0x400000 ≤ v ∧ v < top) ∧
      ∀ x < ph.extent size, page ((ph.pVaddr + x) % 2 ^ 32) ∈ ps ++ ph.pages.map page := by
  rw [Phdr.accesses, safe_append, safe_maps, Phdr.stores, safe_writes, mappedPages, mapped_map]
  simp only [List.mem_range]

theorem confinedFrom_iff_safe {phs : List Phdr} : ConfinedFrom top size ps phs ↔
    Safe top ps (phs.flatMap (Phdr.accesses content size)) := by
  induction phs generalizing ps with
  | nil => exact Iff.rfl
  | cons ph phs ih =>
      rw [List.flatMap_cons, safe_append, ConfinedFrom, ih, safe_accesses, mappedPages_accesses,
        and_assoc]

theorem confined_iff_safe : Confined top content size ↔ Safe top [] (accesses content size) :=
  confinedFrom_iff_safe

/-- Any first part of a safe list is safe. -/
theorem Safe.of_prefix (h : Safe top ps all) (hds : ds <+: all) : Safe top ps ds := by
  obtain ⟨es, rfl⟩ := hds
  exact (safe_append.1 h).1

theorem Safe.map (h : Safe top [] all) (hds : ds ++ [.map v] <+: all) :
    0x400000 ≤ v ∧ v < top :=
  (safe_append.1 (h.of_prefix hds)).2.1

theorem Safe.write {x : UInt8} (h : Safe top [] all) (hds : ds ++ [.write v x] <+: all) :
    page v ∈ mappedPages ds :=
  (safe_append.1 (h.of_prefix hds)).2.1

theorem Safe.mem_mapped (h : Safe top [] ds) (hv : v ∈ mapped ds) : 0x400000 ≤ v ∧ v < top := by
  obtain ⟨xs, ys, rfl⟩ := List.append_of_mem (Access.mem_mapped.1 hv)
  rw [List.append_cons] at h
  exact h.map (List.prefix_append _ _)

theorem Safe.exists_page (h : Safe top [] ds) {q : ℕ} (hq : q ∈ mappedPages ds) :
    ∃ v, q = page v ∧ 0x400000 ≤ v ∧ v < top := by
  obtain ⟨v, hv, rfl⟩ := List.mem_map.1 hq
  exact ⟨v, rfl, h.mem_mapped hv⟩

/-! ### The steps of a run -/

namespace Image

/-- `vmm_alloc_page` for a page of the program. -/
theorem alloc (h : Image d s₀ s ds taken lost) (hlow : 0x400000 ≤ v) (hhigh : v < 0xFFC00000) :
    (Exhausted s.pmm ∧ vmmAllocPage v userFlags s = some (0, s)) ∨
      ∃ s' taken' lost', vmmAllocPage v userFlags s = some (v, s') ∧
        Image d s₀ s' (ds ++ [.map v]) taken' lost' := by
  have hwin : page v < windowPage := by
    unfold windowPage
    rw [page_eq]
    omega
  rcases h.space.alloc (by omega : 0x1000 ≤ v) hhigh with hex | ⟨f, s', hs', hlose⟩ |
    ⟨f, s', hs', hadd⟩
  · exact Or.inl hex
  · exact Or.inr ⟨s', taken, f :: lost, hs', h.lose hlose hwin⟩
  · exact Or.inr ⟨s', _, lost, hs', h.added hadd hwin⟩

/-- A store in a page that was asked for. It faults if the page was lost. -/
theorem store (h : Image d s₀ s ds taken lost) (hmem : page v ∈ mappedPages ds)
    (hwin : page v < windowPage) (x : UInt8) :
    (lost ≠ [] ∧ mmu s.memory s.cr3 v = none) ∨
      ∃ phys, mmu s.memory s.cr3 v = some phys ∧
        Image d s₀ { s with memory := store8 s.memory phys x } (ds ++ [.write v x]) taken lost := by
  cases hf : taken.lookup (page v) with
  | none =>
      refine Or.inl ⟨fun hlost => lookup_eq_none.1 hf ?_, ?_⟩
      · rwa [h.complete hlost, List.mem_reverse]
      · rw [h.space.mmu_eq, show lookup s.memory d (v / 4096) = none from
          h.gone _ hwin hmem hf]
        rfl
  | some f =>
      have hentry := h.entry _ f hf
      have hlt := (h.free f (Or.inl (lookup_mem hf).2)).2.1
      obtain ⟨hmmu, hspace, hdir, hlookup⟩ := h.space.store8 (v := v) hwin hentry x
      rw [frameOf_userEntry hlt] at hmmu hspace hdir hlookup
      exact Or.inr ⟨_, hmmu, h.stored hf hspace hdir hlookup⟩

/-- Pages that were not asked for are as they were. -/
theorem untouched (h : Image d s₀ s ds taken lost) (h₀ : AddressSpace s₀ d) (hv : v < 0xFFC00000)
    (hno : page v ∉ mappedPages ds) :
    mmu s.memory s.cr3 v = mmu s₀.memory s₀.cr3 v ∧ userByte s v = userByte s₀ v := by
  have hwin : v / 4096 < windowPage := by
    unfold windowPage
    omega
  have hnone : taken.lookup (v / 4096) = none :=
    lookup_eq_none.2 fun hmem => hno (h.pages _ hmem).1
  have hsame := h.others _ hwin hnone
  rw [h.space.mmu_eq, h₀.mmu_eq, h.space.userByte_eq, h₀.userByte_eq, hsame]
  refine ⟨rfl, ?_⟩
  cases he : lookup s₀.memory d (v / 4096) with
  | none => rfl
  | some e =>
      rw [Option.map_some, Option.map_some, h.kept (h₀.owned.mapped _ hwin e he).1
        (h.space.not_tableFrame hwin (hsame.trans he)) (by omega)]

end Image

/-! ### The run -/

/-- What a run from `s₀` has come to: the image for the accesses `ds`, and the log of
them and of a page that could not be had. -/
structure Ran (fs₀ : Fs) (bs₀ : List Block) (node : VfsNode) (content : Bytes) (d : ℕ)
    (k₀ : Kernel) (all ds es : List (Access ℕ UInt8)) (k : Kernel) : Prop where
  held : Held fs₀ bs₀ node content k.fs
  along : ds <+: es
  logged : es <+: all
  log : k.log = k₀.log ++ es
  image : ∃ taken lost, Image d k₀.vmm k.vmm ds taken lost

/-- Why a run ended early. -/
def Halted (fs₀ : Fs) (bs₀ : List Block) (node : VfsNode) (content : Bytes)
    (ds : List (Access ℕ UInt8)) (k : Kernel) : Prop :=
  Exhausted k.vmm.pmm ∨ ¬ ReadRoom fs₀ bs₀ ∨
    (ds = accesses content node.size ∧ ¬ Accepted content node.size)

/-- The run of a safe list of accesses. -/
theorem Safe.loads (h : Safe top [] all) (htop : top ≤ 0xFFC00000)
    (hall : accesses content node.size <+: all) (k₀ : Kernel) :
    Loads fs₀ bs₀ node content all (fun ds => Ran fs₀ bs₀ node content d k₀ all ds ds)
      (fun k => ∃ ds es, Ran fs₀ bs₀ node content d k₀ all ds es k ∧
        Halted fs₀ bs₀ node content ds k)
      (fun k => ∃ ds, Ran fs₀ bs₀ node content d k₀ all ds ds k) where
  map {ds v k} hpre hran := by
    obtain ⟨hlow, hhigh⟩ := h.map hpre
    obtain ⟨taken, lost, himage⟩ := hran.image
    have hlog : k.log ++ [.map v] = k₀.log ++ (ds ++ [.map v]) := by
      rw [hran.log, List.append_assoc]
    rcases himage.alloc hlow (by omega : v < 0xFFC00000) with ⟨hex, hnull⟩ |
      ⟨s', taken', lost', hs', himage'⟩
    · rw [allocPage, show pagePresent ||| pageWritable ||| pageUser = userFlags from rfl, hnull]
      exact ⟨ds, _, ⟨hran.held, List.prefix_append _ _, hpre, hlog, taken, lost, himage⟩,
        Or.inl hex⟩
    · rw [allocPage, show pagePresent ||| pageWritable ||| pageUser = userFlags from rfl, hs']
      rw [Outcome.sat_done, if_neg (by omega)]
      exact ⟨hran.held, List.prefix_rfl, hpre, hlog, taken', lost', himage'⟩
  write {ds v x k} hpre hran := by
    have hmem := h.write hpre
    obtain ⟨w, hw, -, hhigh⟩ := (h.of_prefix ((List.prefix_append _ _).trans hpre)).exists_page hmem
    have hwin : page v < windowPage := by
      unfold windowPage
      rw [hw, page_eq]
      omega
    obtain ⟨taken, lost, himage⟩ := hran.image
    rcases himage.store hmem hwin x with ⟨-, hnone⟩ | ⟨phys, hphys, himage'⟩
    · rw [storeByte, hnone]
      exact ⟨ds, hran⟩
    · rw [storeByte, hphys]
      exact ⟨hran.held, List.prefix_rfl, hpre, by rw [hran.log, List.append_assoc], taken, lost,
        himage'⟩
  accesses := hall
  held hran := hran.held
  read hran hvmm hlog hheld := ⟨hheld, List.prefix_rfl, hran.logged, hlog.trans hran.log, by
    rw [hvmm]
    exact hran.image⟩
  stop {ds k} hran hstop := ⟨ds, ds, hran, Or.inr hstop⟩

theorem Ran.start (hspace : AddressSpace k.vmm d) (hopen : Opened k.fs node content bs₀) :
    Ran k.fs bs₀ node content d k all [] [] k :=
  ⟨hopen.held, List.prefix_rfl, List.nil_prefix, (List.append_nil _).symm, [], [], .start hspace⟩

/-- A run of a confined file, from its start, ends in an image of some of its accesses. -/
theorem Confined.elfLoad (h : Confined top content node.size) (max : ℕ) (htop : top ≤ 0xFFC00000)
    (hspace : AddressSpace k.vmm d) (hopen : Opened k.fs node content bs₀) :
    (elfLoad node max [] k).Sat
      (fun r k' => if r.1 = 0 then ∃ ds es, Ran k.fs bs₀ node content d k
          (accesses content node.size) ds es k' ∧ Halted k.fs bs₀ node content ds k' else
        r.1 = eEntry content ∧ Accepted content node.size ∧ ReadRoom k.fs bs₀ ∧
          r.2 = ((segments content node.size).flatMap Phdr.pages).take max ∧
          Ran k.fs bs₀ node content d k (accesses content node.size)
            (accesses content node.size) (accesses content node.size) k')
      (fun k' => ∃ ds, Ran k.fs bs₀ node content d k (accesses content node.size) ds ds k') :=
  elfLoad_sat max (J := fun ds => Ran k.fs bs₀ node content d k _ ds ds)
    ((confined_iff_safe.1 h).loads htop List.prefix_rfl k) (.start hspace hopen)

/-! ### The log of a complete run -/

theorem allocPage_log (v : ℕ) (k : Kernel) : (allocPage v k).Sat
    (fun _ k' => k'.fs = k.fs ∧ k'.log = k.log ++ [.map v]) fun _ => True := by
  rw [allocPage]
  split
  · trivial
  · exact ⟨rfl, rfl⟩

theorem storeByte_log (v : ℕ) (x : UInt8) (k : Kernel) : (storeByte v x k).Sat
    (fun _ k' => k'.fs = k.fs ∧ k'.log = k.log ++ [.write v x]) fun _ => True := by
  rw [storeByte]
  split
  · trivial
  · exact ⟨rfl, rfl⟩

/-- Whatever the headers say, a run that returns an entry point has made all accesses. -/
theorem elfLoad_log (hopen : Opened k.fs node content bs₀) :
    (elfLoad node max [] k).Sat (fun r k' => r.1 ≠ 0 →
      k'.log = k.log ++ accesses content node.size) fun _ => True := by
  have hloads : Loads k.fs bs₀ node content (accesses content node.size)
      (fun ds k' => Held k.fs bs₀ node content k'.fs ∧ k'.log = k.log ++ ds)
      (fun _ => True) (fun _ => True) :=
    { map := fun {ds v k'} _ hk => (allocPage_log v k').mono (fun p k'' ⟨hfs, hlog⟩ => by
        split_ifs
        exact ⟨hfs.symm ▸ hk.1, by rw [hlog, hk.2, List.append_assoc]⟩) fun _ h => h
      write := fun {ds v x k'} _ hk => (storeByte_log v x k').mono (fun _ k'' ⟨hfs, hlog⟩ =>
        ⟨hfs.symm ▸ hk.1, by rw [hlog, hk.2, List.append_assoc]⟩) fun _ h => h
      accesses := List.prefix_rfl
      held := fun hk => hk.1
      read := fun hk _ hlog hheld => ⟨hheld, hlog.trans hk.2⟩
      stop := fun _ _ => trivial }
  refine (elfLoad_sat max hloads ⟨hopen.held, (List.append_nil _).symm⟩).mono (fun r k' hr hne => ?_)
    fun _ h => h
  rw [if_neg hne] at hr
  exact hr.2.2.2.2.2

/-! ### The user range -/

/-- No page but `ps` has changed, and the tables are in order. -/
structure Untouched (d : ℕ) (s s' : Vmm) (ps : List ℕ) : Prop where
  space : AddressSpace s' d
  mmu : ∀ v < 0xFFC00000, page v ∉ ps → mmu s'.memory s'.cr3 v = mmu s.memory s.cr3 v
  userByte : ∀ v < 0xFFC00000, page v ∉ ps → userByte s' v = userByte s v

/-- A run maps pages of the user range, writes at addresses it has mapped, and changes no
other page and no live block of the heap. -/
structure StaysInside (d : ℕ) (bs : List Block) (k k' : Kernel) : Prop where
  pages : ∃ es, k'.log = k.log ++ es ∧ Safe userStackTop [] es ∧
    Untouched d k.vmm k'.vmm (mappedPages es)
  heap : ∃ bs', Represents k'.fs.heap k.fs.heapStart bs' ∧ SameLive k.fs.heapStart bs bs'

theorem Ran.staysInside (hspace : AddressSpace k.vmm d) (hsafe : Safe userStackTop [] all)
    {k' : Kernel} (h : Ran k.fs bs₀ node content d k all ds es k') : StaysInside d bs₀ k k' := by
  obtain ⟨heap, bs, hfs, hopen, hsame, -⟩ := h.held
  obtain ⟨taken, lost, himage⟩ := h.image
  have hsub : ∀ q, q ∉ mappedPages es → q ∉ mappedPages ds := by
    obtain ⟨us, hus⟩ := h.along
    intro q hq hmem
    rw [← hus, mappedPages_append] at hq
    exact hq (List.mem_append_left _ hmem)
  refine ⟨⟨es, h.log, hsafe.of_prefix h.logged, himage.space, ?_, ?_⟩, bs, ?_, hsame⟩
  · exact fun v hv hno => (himage.untouched hspace hv (hsub _ hno)).1
  · exact fun v hv hno => (himage.untouched hspace hv (hsub _ hno)).2
  · have hrep := hopen.heap
    rw [hfs] at hrep ⊢
    exact hrep

/-- A run of a confined file stays in the user range, however it ends, and only confined
files are loaded to their end in this way. -/
theorem elfLoad_staysInside (node : VfsNode) (k : Kernel) (d max : ℕ) (content : Bytes)
    (bs : List Block) (hspace : AddressSpace k.vmm d) (hopen : Opened k.fs node content bs) :
    (Confined userStackTop content node.size →
      StaysInside d bs k (elfLoad node max [] k).state) ∧
    ∀ entry pages k', elfLoad node max [] k = .done (entry, pages) k' → entry ≠ 0 →
      (StaysInside d bs k k' ↔ Confined userStackTop content node.size) := by
  have hinside : Confined userStackTop content node.size →
      StaysInside d bs k (elfLoad node max [] k).state := by
    intro h
    have hsafe := confined_iff_safe.1 h
    refine Outcome.Sat.state (F := StaysInside d bs k) ?_
    refine (h.elfLoad max (by decide) hspace hopen).mono (fun r k' hr => ?_) fun k' hk' => ?_
    · split_ifs at hr
      · obtain ⟨ds, es, hran, -⟩ := hr
        exact hran.staysInside hspace hsafe
      · exact hr.2.2.2.2.staysInside hspace hsafe
    · obtain ⟨ds, hran⟩ := hk'
      exact hran.staysInside hspace hsafe
  refine ⟨hinside, fun entry pages k' hrun hne => ⟨fun h => ?_, fun h => ?_⟩⟩
  · obtain ⟨es, hlog, hsafe, -⟩ := h.pages
    rw [(elfLoad_log hopen).of_eq_done hrun hne] at hlog
    rw [confined_iff_safe, List.append_cancel_left hlog]
    exact hsafe
  · have hstate := hinside h
    rw [hrun] at hstate
    exact hstate

/-! ### On the small machine -/

/-- The small machine with a program file on its disk. -/
def programKernel (file : List UInt8) : Kernel where
  vmm := smallVmm
  fs := Fat16.mountedFs (programVolume file)
  log := []

/-- Two segments of one byte in the first page. -/
def sharedPage : List UInt8 := programFile [⟨1, 0, 0x400000, 1, 1⟩, ⟨1, 1, 0x400001, 1, 1⟩]

/-- A file with one segment, of 32 bytes in two pages. -/
def smallProgram : List UInt8 := programFile [⟨1, 0, 0x400FF0, 16, 32⟩]

theorem length_smallProgram : smallProgram.length < 256 := by decide +kernel

theorem elfLoad_staysInside_small : StaysInside 1024 initialBlocks (programKernel smallProgram)
    (elfLoad (programNode smallProgram) 64 [] (programKernel smallProgram)).state :=
  (elfLoad_staysInside (programNode smallProgram) (programKernel smallProgram) 1024 64
    (programContent smallProgram) initialBlocks addressSpace_small
    (opened_program length_smallProgram)).1 (by decide +kernel)

/-- A file with a segment of one byte at 1 MiB, where the kernel is. -/
def kernelSegment : List UInt8 := programFile [⟨1, 0, 0x100000, 1, 1⟩]

/-- The page of the kernel is mapped to another frame. -/
theorem not_staysInside_kernelSegment :
    AddressSpace (programKernel kernelSegment).vmm 1024 ∧
      Opened (programKernel kernelSegment).fs (programNode kernelSegment)
        (programContent kernelSegment) initialBlocks ∧
      mmu smallVmm.memory smallVmm.cr3 0x100000 = some 0x100000 ∧
      ∃ pages k', elfLoad (programNode kernelSegment) 64 [] (programKernel kernelSegment) =
          .done (0x400000, pages) k' ∧
        mmu k'.vmm.memory k'.vmm.cr3 0x100000 = some 0x404000 ∧
        ¬ StaysInside 1024 initialBlocks (programKernel kernelSegment) k' := by
  have hrun : (elfLoad (programNode kernelSegment) 64 [] (programKernel kernelSegment)).Sat
      (fun r k' => r.1 = 0x400000 ∧ k'.log = [.map 0x100000, .write 0x100000 0x7F] ∧
        mmu k'.vmm.memory k'.vmm.cr3 0x100000 = some 0x404000) fun _ => False := by
    decide +kernel
  refine ⟨addressSpace_small, opened_program (by decide), by decide +kernel, ?_⟩
  obtain ⟨⟨entry, pages⟩, k', helf, hentry, hlog, hmmu⟩ := hrun.exists_done
  obtain rfl : entry = 0x400000 := hentry
  refine ⟨pages, k', helf, hmmu, fun h => ?_⟩
  obtain ⟨es, hes, hsafe, -⟩ := h.pages
  rw [hlog] at hes
  obtain rfl : [.map 0x100000, .write 0x100000 0x7F] = es := hes
  exact absurd hsafe.1.1 (by decide)

end Loader

end Yotos
