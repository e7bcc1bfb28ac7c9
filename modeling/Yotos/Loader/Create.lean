import Yotos.Loader.Confined

/-!
# Creating a process

`process_create` takes a process, a kernel stack and the pages of the program and its
user stack. When it fails it gives back the first two. The pages it mapped stay mapped,
so a failure restores the state exactly when it comes before the first page.
-/

namespace Yotos

namespace Loader

open Bytes Library Library.Access Kheap
open Fat16 (Fs VfsNode)
open Vmm
open Pmm (used pmmngrAllocBlock)

variable {bs bs₂ : List Block} {node : VfsNode} {content : Bytes} {k k₂ : Kernel}
  {d n proc kstack top : ℕ} {all ds es : List (Access ℕ UInt8)}
  {J : List (Access ℕ UInt8) → Kernel → Prop} {F S : Kernel → Prop}

/-- The heap has the live blocks it had. -/
def HeapKept (bs : List Block) (k k' : Kernel) : Prop :=
  ∃ bs', Represents k'.fs.heap k.fs.heapStart bs' ∧ SameLive k.fs.heapStart bs bs'

/-- The heap has room for the process, its kernel stack and the buffer of a read. -/
def HeapRoom (k : Kernel) : Prop :=
  ∃ proc h₁ kstack h₂ buf h₃, kmalloc k.fs.heapStart processSize k.fs.heap = some (proc, h₁) ∧
    proc ≠ 0 ∧ kmalloc k.fs.heapStart processKstackSize h₁ = some (kstack, h₂) ∧ kstack ≠ 0 ∧
    kmalloc k.fs.heapStart k.fs.bpb.clusterBytes h₂ = some (buf, h₃) ∧ buf ≠ 0

/-- The kernel after the blocks of the process were taken. -/
structure Prepared (node : VfsNode) (content : Bytes) (bs : List Block) (k : Kernel)
    (proc kstack : ℕ) (bs₂ : List Block) (k₂ : Kernel) : Prop where
  vmm : k₂.vmm = k.vmm
  log : k₂.log = k.log
  heapStart : k₂.fs.heapStart = k.fs.heapStart
  opened : Opened k₂.fs node content bs₂
  live : ∃ b c, ∀ q e, Live k.fs.heapStart bs₂ q e ↔
    (q = kstack ∧ e = c) ∨ (q = proc ∧ e = b) ∨ Live k.fs.heapStart bs q e
  ne : proc ≠ kstack
  fresh : ∀ e, ¬ Live k.fs.heapStart bs proc e ∧ ¬ Live k.fs.heapStart bs kstack e

/-! ### The blocks of the process -/

theorem malloc_cases (hopen : Opened k.fs node content bs) (n : ℕ) :
    (malloc n k = .done 0 k ∧ kmalloc k.fs.heapStart n k.fs.heap = some (0, k.fs.heap)) ∨
      ∃ p heap bs' b, malloc n k = .done p { k with fs := { k.fs with heap := heap } } ∧
        kmalloc k.fs.heapStart n k.fs.heap = some (p, heap) ∧ p ≠ 0 ∧
        Opened { k.fs with heap := heap } node content bs' ∧
        (∀ c, ¬ Live k.fs.heapStart bs p c) ∧
        ∀ q c, Live k.fs.heapStart bs' q c ↔ (q = p ∧ c = b) ∨ Live k.fs.heapStart bs q c := by
  rcases kmalloc_spec n hopen.placed hopen.heap with ⟨-, heq⟩ | ⟨xs, b, ys, heap, -, -, -, heq, -⟩
  · refine Or.inl ⟨?_, heq⟩
    rw [malloc, heq]
  · refine Or.inr ?_
    have hne : k.fs.heapStart + total xs + 16 ≠ 0 := by omega
    obtain ⟨bs', b', hrep, -, hnot, hlive⟩ := kmalloc_live hopen.placed hopen.heap heq hne
    refine ⟨_, heap, bs', b', ?_, heq, hne, hopen.withHeap hrep, hnot, hlive⟩
    rw [malloc, heq]

/-- A block that is given back. -/
theorem heapKept_free {k' : Kernel} {b : Block} (hp : Placed k.fs.heapStart)
    (hrep : Represents k'.fs.heap k.fs.heapStart bs₂) (hno : ∀ e, ¬ Live k.fs.heapStart bs proc e)
    (hlive : ∀ q e, Live k.fs.heapStart bs₂ q e ↔ (q = proc ∧ e = b) ∨
      Live k.fs.heapStart bs q e) : HeapKept bs k (free proc k') := by
  obtain ⟨bs', hrep', -, hlive'⟩ := kfree_live hp hrep ((hlive proc b).2 (Or.inl ⟨rfl, rfl⟩))
  refine ⟨bs', hrep', fun q e => ?_⟩
  rw [hlive', hlive]
  constructor
  · rintro ⟨⟨rfl, -⟩ | hq, hne⟩
    · exact absurd rfl hne
    · exact hq
  · intro hq
    refine ⟨Or.inr hq, ?_⟩
    rintro rfl
    exact hno e hq

/-- Both blocks are given back. -/
theorem Prepared.freed (h : Prepared node content bs k proc kstack bs₂ k₂) {k' : Kernel}
    (hheld : Held k₂.fs bs₂ node content k'.fs) : HeapKept bs k (free proc (free kstack k')) := by
  obtain ⟨heap, bs', hfs, hopen, hsame, -⟩ := hheld
  obtain ⟨b, c, hlive⟩ := h.live
  have hstart : k'.fs.heapStart = k.fs.heapStart := by rw [hfs, ← h.heapStart]
  have hplaced := hopen.placed
  have hrep := hopen.heap
  rw [hstart] at hrep hplaced
  rw [h.heapStart] at hsame
  have hkstack : Live k.fs.heapStart bs' kstack c :=
    (hsame kstack c).2 ((hlive kstack c).2 (Or.inl ⟨rfl, rfl⟩))
  obtain ⟨bs'', hrep', -, hlive'⟩ := kfree_live hplaced hrep hkstack
  refine heapKept_free (b := b) hplaced hrep' (fun e => (h.fresh e).1) fun q e => ?_
  rw [hlive', hsame, hlive]
  constructor
  · rintro ⟨⟨rfl, -⟩ | hq, hne⟩
    · exact absurd rfl hne
    · exact hq
  · rintro (⟨rfl, rfl⟩ | hq)
    · exact ⟨Or.inr (Or.inl ⟨rfl, rfl⟩), h.ne⟩
    · refine ⟨Or.inr (Or.inr hq), ?_⟩
      rintro rfl
      exact (h.fresh e).2 hq

/-- Either a block cannot be had, or the file is loaded next. -/
theorem processCreate_cases (hopen : Opened k.fs node content bs) :
    (∃ k', processCreate node k = .done none k' ∧ k'.vmm = k.vmm ∧ HeapKept bs k k' ∧
        ¬ HeapRoom k) ∨
      ∃ proc kstack bs₂ k₂, processCreate node k = createWith node proc kstack k₂ ∧
        Prepared node content bs k proc kstack bs₂ k₂ ∧ (HeapRoom k ↔ ReadRoom k₂.fs bs₂) := by
  rcases malloc_cases hopen processSize with ⟨hmalloc, hnull⟩ |
    ⟨proc, h₁, bs₁, b, hmalloc, hsome, hproc, hopen₁, hno, hlive⟩
  · refine Or.inl ⟨k, ?_, rfl, ⟨bs, hopen.heap, .refl _ _⟩, ?_⟩
    · rw [processCreate, hmalloc]
      rfl
    · rintro ⟨proc, h₁, -, -, -, -, hsome, hne, -⟩
      rw [hnull] at hsome
      exact hne (Prod.mk.inj (Option.some.inj hsome)).1.symm
  have hcreate : processCreate node k =
      (malloc processKstackSize { k with fs := { k.fs with heap := h₁ } }).bind fun kstack k =>
        if kstack = 0 then .done none (free proc k) else createWith node proc kstack k := by
    rw [processCreate, hmalloc, Outcome.bind_done, if_neg hproc]
  have hroom₁ : ∀ {proc' h₁'}, kmalloc k.fs.heapStart processSize k.fs.heap = some (proc', h₁') →
      h₁' = h₁ := by
    intro proc' h₁' heq
    rw [hsome] at heq
    exact (Prod.mk.inj (Option.some.inj heq)).2.symm
  rcases malloc_cases (k := { k with fs := { k.fs with heap := h₁ } }) hopen₁ processKstackSize with
    ⟨hmalloc', hnull⟩ | ⟨kstack, h₂, bs₂, c, hmalloc', hsome', hkstack, hopen₂, hno', hlive'⟩
  · refine Or.inl ⟨free proc { k with fs := { k.fs with heap := h₁ } }, ?_, rfl,
      heapKept_free (b := b) hopen.placed hopen₁.heap hno hlive, ?_⟩
    · rw [hcreate, hmalloc', Outcome.bind_done, if_pos rfl]
    rintro ⟨proc', h₁', kstack', h₂', -, -, hsome', -, hsome₂, hne, -⟩
    obtain rfl := hroom₁ hsome'
    rw [show kmalloc k.fs.heapStart processKstackSize h₁' = some (0, h₁') from hnull] at hsome₂
    exact hne (Prod.mk.inj (Option.some.inj hsome₂)).1.symm
  · refine Or.inr ⟨proc, kstack, bs₂, { k with fs := { k.fs with heap := h₂ } }, by
      rw [hcreate, hmalloc', Outcome.bind_done, if_neg hkstack],
      ⟨rfl, rfl, rfl, hopen₂, ⟨b, c, fun q e => ?_⟩, ?_, fun e => ⟨hno e, ?_⟩⟩, ?_⟩
    · rw [hlive', hlive]
    · rintro rfl
      exact hno' b ((hlive proc b).2 (Or.inl ⟨rfl, rfl⟩))
    · exact fun hmem => hno' e ((hlive kstack e).2 (Or.inr hmem))
    · have hiff := kmalloc_null_iff (n := k.fs.bpb.clusterBytes) hopen₂.placed hopen₂.heap
      constructor
      · rintro ⟨proc', h₁', kstack', h₂', buf, h₃, hs, -, hs', -, hs'', hbuf⟩
        obtain rfl := hroom₁ hs
        rw [show kmalloc k.fs.heapStart processKstackSize h₁' = some (kstack, h₂) from hsome'] at hs'
        obtain ⟨-, rfl⟩ := Prod.mk.inj (Option.some.inj hs')
        by_contra hnoroom
        rw [show kmalloc k.fs.heapStart k.fs.bpb.clusterBytes h₂ = some (0, h₂) from
          hiff.2 hnoroom] at hs''
        exact hbuf (Prod.mk.inj (Option.some.inj hs'')).1.symm
      · intro hroom
        rcases kmalloc_spec k.fs.bpb.clusterBytes hopen₂.placed hopen₂.heap with ⟨-, heq⟩ |
          ⟨xs, e, ys, h₃, -, -, -, heq, -⟩
        · exact absurd hroom (hiff.1 heq)
        · exact ⟨proc, h₁, kstack, h₂, _, h₃, hsome, hproc, hsome', hkstack, heq, by omega⟩

/-! ### The run -/

/-- `process_create` once it has its blocks. -/
theorem createWith_sat (proc kstack : ℕ) (h : Loads k₂.fs bs₂ node content all J F S)
    (hall : accesses content node.size ++ stackPages.map .map <+: all) (hJ : J [] k₂) :
    (createWith node proc kstack k₂).Sat (fun r k' => match r with
      | none => ∃ k'', F k'' ∧ k' = free proc (free kstack k'')
      | some p => Accepted content node.size ∧
          p.mappedPages = ((segments content node.size).flatMap Phdr.pages ++ stackPages).take
            processMaxPages ∧
          J (accesses content node.size ++ stackPages.map .map) k') S := by
  rw [createWith]
  refine (elfLoad_sat processMaxPages h hJ).bind fun ⟨entry, pages⟩ k₃ hr => ?_
  dsimp only at hr ⊢
  by_cases h0 : entry = 0
  · rw [if_pos h0] at hr ⊢
    exact ⟨k₃, hr, rfl⟩
  rw [if_neg h0] at hr ⊢
  obtain ⟨-, hacc, -, hpages, hJ₃⟩ := hr
  have hmapped : mapped (accesses content node.size) =
      (segments content node.size).flatMap Phdr.pages := mapped_accesses _ _ _
  refine (mapPages_sat h.toFollows hall hJ₃ (hmapped ▸ hpages)).bind fun ⟨ok, pages'⟩ k₄ hr => ?_
  cases ok
  · exact ⟨k₄, by simpa using hr, rfl⟩
  · simp only [if_true] at hr ⊢
    rw [hmapped] at hr
    exact ⟨hacc, hr⟩

/-! ### Failures -/

/-- Nothing has been taken when the failure comes: a block of the heap cannot be had, the
file ends before its first page, or its first page cannot be had. -/
def FailsClean (k : Kernel) (content : Bytes) (size : ℕ) : Prop :=
  ¬ HeapRoom k ∨ (accesses content size = [] ∧ ¬ Accepted content size) ∨
    (Exhausted k.vmm.pmm ∧ ∀ v x es, accesses content size ≠ .write v x :: es)

/-- No user page is mapped that was not, no frame is taken but for tables, and the live
blocks of the heap are as before. -/
structure Restored (d : ℕ) (bs : List Block) (k k' : Kernel) : Prop where
  pages : ∀ v, 0x400000 ≤ v → v < userStackTop → mmu k.vmm.memory k.vmm.cr3 v = none →
    mmu k'.vmm.memory k'.vmm.cr3 v = none
  frames : ∀ f, used k'.vmm.pmm f = true → used k.vmm.pmm f = true ∨ TableFrame k'.vmm d f
  heap : HeapKept bs k k'

theorem restored_of_vmm_eq {k' : Kernel} (hvmm : k'.vmm = k.vmm) (hheap : HeapKept bs k k') :
    Restored d bs k k' where
  pages v _ _ hnone := by
    rw [hvmm]
    exact hnone
  frames f hf := Or.inl (by rwa [hvmm] at hf)
  heap := hheap

/-- Without a buffer the header cannot be read. -/
theorem elfLoad_of_not_readRoom {max : ℕ} (hheld : Held k₂.fs bs₂ node content k₂.fs)
    (hno : ¬ ReadRoom k₂.fs bs₂) : (elfLoad node max [] k₂).Sat (fun r k' => r.1 = 0 ∧
      Held k₂.fs bs₂ node content k'.fs ∧ k'.vmm = k₂.vmm) fun _ => False := by
  rw [elfLoad]
  refine (readFile_sat hheld _ (by decide) _).bind fun r k' hr => ?_
  obtain ⟨hvmm, -, hheld', hgot⟩ := hr
  rcases hgot with ⟨hle, -⟩ | ⟨hroom, -⟩
  · dsimp only
    rw [if_pos (by
      unfold ehdrSize
      omega)]
    exact ⟨rfl, hheld', hvmm⟩
  · exact absurd hroom hno

/-- A file that ends before its first page. -/
theorem elfLoad_of_no_access {max : ℕ} (hheld : Held k₂.fs bs₂ node content k₂.fs)
    (hnil : accesses content node.size = []) (hno : ¬ Accepted content node.size) :
    (elfLoad node max [] k₂).Sat (fun r k' => r.1 = 0 ∧
      Held k₂.fs bs₂ node content k'.fs ∧ k'.vmm = k₂.vmm) fun _ => False := by
  have hloads : Loads k₂.fs bs₂ node content []
      (fun _ k' => Held k₂.fs bs₂ node content k'.fs ∧ k'.vmm = k₂.vmm)
      (fun k' => Held k₂.fs bs₂ node content k'.fs ∧ k'.vmm = k₂.vmm) (fun _ => False) :=
    { map := fun hpre _ => absurd (List.prefix_nil.1 hpre) (by simp)
      write := fun hpre _ => absurd (List.prefix_nil.1 hpre) (by simp)
      accesses := hnil ▸ List.prefix_rfl
      held := fun h => h.1
      read := fun h hvmm _ hheld' => ⟨hheld', hvmm.trans h.2⟩
      stop := fun h _ => h }
  refine (elfLoad_sat max hloads ⟨hheld, rfl⟩).mono (fun r k' hr => ?_) fun _ h => h
  by_cases h0 : r.1 = 0
  · rw [if_pos h0] at hr
    exact ⟨h0, hr⟩
  · rw [if_neg h0] at hr
    exact absurd hr.2.1 hno

/-- Without a frame for the first page nothing changes. -/
theorem loads_of_exhausted (hex : Exhausted k₂.vmm.pmm)
    (hfirst : ∀ v x es, accesses content node.size ++ stackPages.map .map ≠ .write v x :: es) :
    Loads k₂.fs bs₂ node content (accesses content node.size ++ stackPages.map .map)
      (fun ds k' => ds = [] ∧ Held k₂.fs bs₂ node content k'.fs ∧ k'.vmm = k₂.vmm)
      (fun k' => Held k₂.fs bs₂ node content k'.fs ∧ k'.vmm = k₂.vmm) (fun _ => False) where
  map {ds v k'} _ hk := by
    have hnull : vmmAllocPage v userFlags k'.vmm = some (0, k'.vmm) := by
      rw [vmmAllocPage, hk.2.2, show pmmngrAllocBlock k₂.vmm.pmm = (0, k₂.vmm.pmm) from hex]
      rfl
    rw [allocPage, show pagePresent ||| pageWritable ||| pageUser = userFlags from rfl, hnull]
    exact hk.2
  write {ds v x k'} hpre hk := by
    obtain ⟨es, hes⟩ := hpre
    rw [hk.1, List.nil_append, List.singleton_append] at hes
    exact absurd hes.symm (hfirst v x es)
  accesses := List.prefix_append _ _
  held hk := hk.2.1
  read hk hvmm _ hheld := ⟨hk.1, hheld, hvmm.trans hk.2.2⟩
  stop hk _ := hk.2

theorem createWith_of_elfLoad_fails {P : Kernel → Prop}
    (h : (elfLoad node processMaxPages [] k₂).Sat (fun r k' => r.1 = 0 ∧ P k') S) :
    (createWith node proc kstack k₂).Sat
      (fun r k' => ∃ k'', P k'' ∧ r = none ∧ k' = free proc (free kstack k'')) S := by
  rw [createWith]
  refine h.bind fun r k₃ hr => ?_
  dsimp only
  rw [if_pos hr.1]
  exact ⟨k₃, hr.2, rfl, rfl⟩

/-- A clean failure restores the state. -/
theorem FailsClean.restored {k' : Kernel} (hopen : Opened k.fs node content bs)
    (h : FailsClean k content node.size) (hnone : processCreate node k = .done none k') :
    Restored d bs k k' := by
  rcases processCreate_cases hopen with ⟨k'', hrun, hvmm, hheap, -⟩ |
    ⟨proc, kstack, bs₂, k₂, hrun, hprep, hroom⟩
  · obtain ⟨-, rfl⟩ := Outcome.done.inj (hrun.symm.trans hnone)
    exact restored_of_vmm_eq hvmm hheap
  have hheld := hprep.opened.held
  have hdone : ∀ k'', Held k₂.fs bs₂ node content k''.fs ∧ k''.vmm = k₂.vmm →
      k' = free proc (free kstack k'') → Restored d bs k k' := by
    rintro k'' ⟨hheld'', hvmm⟩ rfl
    exact restored_of_vmm_eq (hvmm.trans hprep.vmm) (hprep.freed hheld'')
  rw [hrun] at hnone
  have hfails : (elfLoad node processMaxPages [] k₂).Sat (fun r k' => r.1 = 0 ∧
      Held k₂.fs bs₂ node content k'.fs ∧ k'.vmm = k₂.vmm) (fun _ => False) →
      Restored d bs k k' := by
    intro hsat
    obtain ⟨k'', hk'', -, heq⟩ := (createWith_of_elfLoad_fails hsat).of_eq_done hnone
    exact hdone k'' hk'' heq
  rcases h with hno | ⟨hnil, hno⟩ | ⟨hex, hfirst⟩
  · exact hfails (elfLoad_of_not_readRoom hheld fun hyes => hno (hroom.2 hyes))
  · exact hfails (elfLoad_of_no_access hheld hnil hno)
  · have hfirst' : ∀ v x es, accesses content node.size ++ stackPages.map .map ≠
        .write v x :: es := by
      intro v x es
      cases hacc : accesses content node.size with
      | nil => simp [stackPages, userStackPages, List.range_succ]
      | cons a as =>
          rintro heq
          obtain ⟨rfl, -⟩ := List.cons.inj heq
          exact hfirst v x as hacc
    have hsat := (createWith_sat proc kstack
      (loads_of_exhausted (hprep.vmm ▸ hex) hfirst') List.prefix_rfl
      ⟨rfl, hheld, rfl⟩).of_eq_done hnone
    obtain ⟨k'', hk'', heq⟩ := hsat
    exact hdone k'' hk'' heq

/-! ### Failures that take something -/

theorem Image.eq_nil {s₀ s : Vmm} {taken : List (ℕ × ℕ)} {lost : List ℕ}
    (h : Image d s₀ s ds taken lost)
    (hframes : ∀ f, used s.pmm f = true → used s₀.pmm f = true ∨ TableFrame s d f) :
    taken = [] ∧ lost = [] := by
  have hno : ∀ g, ¬ (g ∈ taken.map Prod.snd ∨ g ∈ lost) := by
    intro g hg
    obtain ⟨hfree, -, htable⟩ := h.free g hg
    rcases hframes g (h.taken_used hg) with hused | ht
    · rw [hfree] at hused
      cases hused
    · exact htable ht
  constructor
  · cases taken with
    | nil => rfl
    | cons p taken => exact absurd (Or.inl (by simp)) (hno p.2)
  · cases lost with
    | nil => rfl
    | cons g lost => exact absurd (Or.inr List.mem_cons_self) (hno g)

/-- A safe list begins with a page. -/
theorem Safe.head_ne_write (h : Safe top [] all) (v : ℕ) (x : UInt8) (es : List (Access ℕ UInt8)) :
    all ≠ .write v x :: es := by
  rintro rfl
  exact absurd h.1 List.not_mem_nil

theorem Safe.eq_nil (h : Safe top [] all) (hnil : mappedPages all = []) : all = [] := by
  cases all with
  | nil => rfl
  | cons a as =>
      cases a with
      | map v => cases hnil
      | write v x => exact absurd rfl (h.head_ne_write v x as)

/-- The stack lies in the user range, too. -/
theorem Confined.safe_create (h : Confined top content node.size) (htop : userStackTop ≤ top) :
    Safe top [] (accesses content node.size ++ stackPages.map .map) := by
  refine safe_append.2 ⟨confined_iff_safe.1 h, safe_maps.2 fun v hv => ?_⟩
  obtain ⟨i, hi, rfl⟩ := List.mem_map.1 hv
  have hi := List.mem_range.1 hi
  unfold userStackPages at hi
  unfold userStackTop at htop
  unfold userStackVirt pageSize
  omega

/-- A run that ended early without taking anything. -/
theorem Ran.failsClean (hsafe : Safe top [] (accesses content node.size)) {k' : Kernel}
    (hvmm : k₂.vmm = k.vmm) (hroom : HeapRoom k ↔ ReadRoom k₂.fs bs₂)
    (h : Ran k₂.fs bs₂ node content d k₂ all ds es k')
    (hhalt : Halted k₂.fs bs₂ node content ds k')
    (hframes : ∀ f, used k'.vmm.pmm f = true → used k.vmm.pmm f = true ∨ TableFrame k'.vmm d f) :
    FailsClean k content node.size := by
  obtain ⟨taken, lost, himage⟩ := h.image
  obtain ⟨rfl, rfl⟩ := himage.eq_nil (by rwa [hvmm])
  rcases hhalt with hex | hno | ⟨rfl, hno⟩
  · rw [himage.pmm rfl rfl, hvmm] at hex
    exact Or.inr (Or.inr ⟨hex, hsafe.head_ne_write⟩)
  · exact Or.inl fun hyes => hno (hroom.1 hyes)
  · refine Or.inr (Or.inl ⟨hsafe.eq_nil ?_, hno⟩)
    exact List.reverse_eq_nil_iff.1 (himage.complete rfl).symm

/-- A failure of `process_create` restores the state when nothing has been taken before
it, and for a confined file only then. -/
theorem processCreate_restored_iff (node : VfsNode) (k k' : Kernel) (d : ℕ) (content : Bytes)
    (bs : List Block) (hspace : AddressSpace k.vmm d) (hopen : Opened k.fs node content bs)
    (hnone : processCreate node k = .done none k') :
    (FailsClean k content node.size → Restored d bs k k') ∧
      (Confined 0xFFC00000 content node.size →
        (Restored d bs k k' ↔ FailsClean k content node.size)) := by
  refine ⟨fun h => h.restored hopen hnone, fun hconf => ⟨fun hrest => ?_,
    fun h => h.restored hopen hnone⟩⟩
  rcases processCreate_cases hopen with ⟨-, -, -, -, hno⟩ |
    ⟨proc, kstack, bs₂, k₂, hrun, hprep, hroom⟩
  · exact Or.inl hno
  rw [hrun] at hnone
  have hsafe := hconf.safe_create (by decide)
  obtain ⟨k'', ⟨ds, es, hran, hhalt⟩, heq⟩ := (createWith_sat proc kstack
    (J := fun ds => Ran k₂.fs bs₂ node content d k₂ _ ds ds)
    (hsafe.loads le_rfl (List.prefix_append _ _) k₂) List.prefix_rfl
    (.start (hprep.vmm.symm ▸ hspace) hprep.opened)).of_eq_done hnone
  refine hran.failsClean (confined_iff_safe.1 hconf) hprep.vmm hroom hhalt fun f hf => ?_
  have hvmm : k'.vmm = k''.vmm := by rw [heq]; rfl
  have hframes := hrest.frames f
  rw [hvmm] at hframes
  exact hframes hf

/-! ### On the small machine -/

/-- The small machine with no free frame. -/
def fullVmm : Vmm :=
  { smallVmm with
    pmm := { smallVmm.pmm with usedBlocks := 2048, memoryMap := fun _ => 0xffffffff#32 } }

theorem used_fullVmm (f : ℕ) : used fullVmm.pmm f = true := by
  rw [used, Packed.member, fullVmm]
  exact Pmm.getLsbD_ones (Nat.mod_lt _ (by decide))

theorem addressSpace_full : AddressSpace fullVmm 1024 := by
  have hfull : Handout fullVmm.pmm :=
    ⟨fun f _ => used_fullVmm f, fun f _ _ hfree => absurd hfree (by simp [used_fullVmm])⟩
  exact addressSpace_small.withPmm hfull rfl fun f _ => used_fullVmm f

/-- That machine with the file of two pages. -/
def fullKernel : Kernel := { programKernel smallProgram with vmm := fullVmm }

theorem opened_full : Opened fullKernel.fs (programNode smallProgram)
    (programContent smallProgram) initialBlocks :=
  opened_program length_smallProgram

/-- The failures of a file of one byte, which is no program, and of a program for whose first
page there is no frame take nothing. -/
theorem processCreate_restored_small :
    (∃ k', processCreate (programNode [0]) (programKernel [0]) = .done none k' ∧
      Restored 1024 initialBlocks (programKernel [0]) k') ∧
    ∃ k', processCreate (programNode smallProgram) fullKernel = .done none k' ∧
      Restored 1024 initialBlocks fullKernel k' := by
  have hrun : (processCreate (programNode [0]) (programKernel [0])).Sat
      (fun r _ => r.isNone = true) fun _ => False := by
    decide +kernel
  have hrun' : (processCreate (programNode smallProgram) fullKernel).Sat
      (fun r _ => r.isNone = true) fun _ => False := by
    decide +kernel
  constructor
  · obtain ⟨r, k', hk', hr⟩ := hrun.exists_done
    obtain rfl := Option.isNone_iff_eq_none.1 hr
    refine ⟨k', hk', (processCreate_restored_iff (programNode [0]) (programKernel [0]) k' 1024
      (programContent [0]) initialBlocks addressSpace_small (opened_program (by decide)) hk').1 ?_⟩
    have hheader : ¬ HeaderOk (programContent [0]) (programNode [0]).size := by decide +kernel
    refine Or.inr (Or.inl ⟨?_, fun h => hheader h.header⟩)
    rw [accesses, segments, if_neg hheader, List.flatMap_nil]
  · obtain ⟨r, k', hk', hr⟩ := hrun'.exists_done
    obtain rfl := Option.isNone_iff_eq_none.1 hr
    refine ⟨k', hk', (processCreate_restored_iff (programNode smallProgram) fullKernel k' 1024
      (programContent smallProgram) initialBlocks addressSpace_full opened_full hk').1 ?_⟩
    have hfirst : (accesses (programContent smallProgram) (programNode smallProgram).size).head? =
        some (.map 0x400000) := by
      decide +kernel
    refine Or.inr (Or.inr ⟨rfl, fun v x es hes => ?_⟩)
    rw [hes, List.head?_cons] at hfirst
    cases hfirst

/-- A file whose only segment is cut off after four of its eight bytes. -/
def cutOff : List UInt8 := programFile [⟨1, 80, 0x400000, 8, 8⟩]

theorem processCreate_cutOff : (processCreate (programNode cutOff) (programKernel cutOff)).Sat
    (fun r k' => r.isNone = true ∧ mmu k'.vmm.memory k'.vmm.cr3 0x400000 = some 0x404000)
    fun _ => False := by
  decide +kernel

/-- Its page stays mapped. -/
theorem not_restored_cutOff :
    AddressSpace (programKernel cutOff).vmm 1024 ∧
      Opened (programKernel cutOff).fs (programNode cutOff) (programContent cutOff)
        initialBlocks ∧
      mmu smallVmm.memory smallVmm.cr3 0x400000 = none ∧
      ∃ k', processCreate (programNode cutOff) (programKernel cutOff) = .done none k' ∧
        mmu k'.vmm.memory k'.vmm.cr3 0x400000 = some 0x404000 ∧
        ¬ Restored 1024 initialBlocks (programKernel cutOff) k' := by
  have hfree : mmu smallVmm.memory smallVmm.cr3 0x400000 = none := by decide +kernel
  refine ⟨addressSpace_small, opened_program (by decide), hfree, ?_⟩
  obtain ⟨r, k', hk', hr, hmmu⟩ := processCreate_cutOff.exists_done
  obtain rfl := Option.isNone_iff_eq_none.1 hr
  refine ⟨k', hk', hmmu, fun h => ?_⟩
  have hnone := h.pages 0x400000 le_rfl (by decide) hfree
  rw [hmmu] at hnone
  cases hnone

end Loader

end Yotos
