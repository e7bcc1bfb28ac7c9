import Yotos.Loader.Create

/-!
# The lifetime of a process

`process_free` unmaps the recorded pages. The list holds 64 of them, and a page that was
mapped twice took two frames but gives back one. So everything is given back exactly
when the pages of the program and its stack are distinct and no more than 64.
-/

namespace Yotos

namespace Loader

open Bytes Library Library.Access Kheap
open Fat16 (Fs VfsNode)
open Vmm
open Pmm (used pmmngrAllocBlock)

variable {bs : List Block} {node : VfsNode} {content : Bytes} {k k₁ k₂ : Kernel} {proc : Process}
  {d f : ℕ} {s₀ s₁ s : Vmm} {ps vs : List ℕ} {taken : List (ℕ × ℕ)}
  {ds : List (Access ℕ UInt8)}

/-! ### Unmapping a list of pages -/

/-- The pages `ps` of `s₁` are no longer mapped, and their frames are free. -/
structure Released (d : ℕ) (s₁ s : Vmm) (ps : List ℕ) : Prop where
  space : AddressSpace s d
  gone : ∀ q < windowPage, q ∈ ps → lookup s.memory d q = none
  others : ∀ q < windowPage, q ∉ ps → lookup s.memory d q = lookup s₁.memory d q
  usedIff : ∀ f, used s.pmm f = true ↔ used s₁.pmm f = true ∧
    ∀ q < windowPage, q ∈ ps → ∀ e, lookup s₁.memory d q = some e → frameOf e ≠ f
  tables : ∀ g, TableFrame s d g ↔ TableFrame s₁ d g

theorem Released.start (h : AddressSpace s d) : Released d s s [] where
  space := h
  gone _ _ hq := absurd hq List.not_mem_nil
  others _ _ _ := rfl
  usedIff _ := ⟨fun hf => ⟨hf, fun _ _ hq => absurd hq List.not_mem_nil⟩, fun hf => hf.1⟩
  tables _ := Iff.rfl

/-- `vmm_unmap_page` for one more page. -/
theorem Released.unmap {v : ℕ} (h : Released d s₁ s ps) (hhigh : v < 0xFFC00000)
    (hframe : ∀ e, lookup s₁.memory d (page v) = some e → 1024 ≤ frameOf e) :
    ∃ s', vmmUnmapPage v s = some s' ∧ Released d s₁ s' (ps ++ [page v]) := by
  have hwin : page v < windowPage := by
    unfold windowPage
    rw [page_eq]
    omega
  cases he : lookup s.memory d (page v) with
  | none =>
      refine ⟨s, h.space.unmap_none hhigh he, h.space, fun q hq hmem => ?_, fun q hq hno => ?_,
        fun f => ?_, h.tables⟩
      · rcases List.mem_append.1 hmem with hmem | hmem
        · exact h.gone q hq hmem
        · obtain rfl := List.mem_singleton.1 hmem
          exact he
      · exact h.others q hq fun hmem => hno (List.mem_append_left _ hmem)
      · rw [h.usedIff]
        refine and_congr_right fun _ => forall_congr' fun q => forall_congr' fun hq => ?_
        rw [List.mem_append, List.mem_singleton]
        refine ⟨fun hps hmem e he' => ?_, fun hps hmem => hps (Or.inl hmem)⟩
        by_cases hold : q ∈ ps
        · exact hps hold e he'
        · obtain rfl := hmem.resolve_left hold
          rw [← h.others _ hq hold, he] at he'
          cases he'
  | some e =>
      have hnew : page v ∉ ps := by
        intro hmem
        rw [h.gone _ hwin hmem] at he
        cases he
      have he₁ : lookup s₁.memory d (page v) = some e := (h.others _ hwin hnew).symm.trans he
      obtain ⟨s', hs', hspace, hnone, hothers, hused, htables⟩ :=
        h.space.unmap hhigh he (hframe e he₁)
      refine ⟨s', hs', hspace, fun q hq hmem => ?_, fun q hq hno => ?_, fun f => ?_,
        fun g => (htables g).trans (h.tables g)⟩
      · by_cases heq : q = page v
        · rw [heq]
          exact hnone
        · rw [hothers q hq heq]
          refine h.gone q hq ((List.mem_append.1 hmem).resolve_right ?_)
          exact fun hmem => heq (List.mem_singleton.1 hmem)
      · rw [List.mem_append, not_or, List.mem_singleton] at hno
        rw [hothers q hq hno.2, h.others q hq hno.1]
      · rw [hused, h.usedIff]
        constructor
        · rintro ⟨hne, hf, hps⟩
          refine ⟨hf, fun q hq hmem e' he' => ?_⟩
          rcases List.mem_append.1 hmem with hmem | hmem
          · exact hps q hq hmem e' he'
          · obtain rfl := List.mem_singleton.1 hmem
            obtain rfl := Option.some.inj (he₁.symm.trans he')
            exact hne.symm
        · rintro ⟨hf, hps⟩
          refine ⟨(hps _ hwin (List.mem_append_right _ List.mem_cons_self) e he₁).symm, hf, ?_⟩
          exact fun q hq hmem => hps q hq (List.mem_append_left _ hmem)

/-- The loop of `process_free`. -/
theorem unmapPages_spec (h : Released d s₁ k.vmm ps) (hvs : ∀ v ∈ vs, v < 0xFFC00000 ∧
      ∀ e, lookup s₁.memory d (page v) = some e → 1024 ≤ frameOf e) :
    ∃ k', unmapPages vs k = .done () k' ∧ Released d s₁ k'.vmm (ps ++ vs.map page) := by
  induction vs generalizing ps k with
  | nil => exact ⟨k, rfl, by simpa using h⟩
  | cons v vs ih =>
      obtain ⟨hhigh, hframe⟩ := hvs v List.mem_cons_self
      obtain ⟨s', hs', hrel⟩ := h.unmap hhigh hframe
      obtain ⟨k', hk', hrel'⟩ := ih (k := { k with vmm := s' }) hrel
        fun w hw => hvs w (List.mem_cons_of_mem _ hw)
      refine ⟨k', ?_, ?_⟩
      · rw [unmapPages, unmapPage, hs', Outcome.bind_done, hk']
      · rwa [List.append_assoc] at hrel'

/-! ### The frames of a process -/

/-- The pages of a program and its stack, in the order in which they are mapped. -/
def programPages (content : Bytes) (size : ℕ) : List ℕ :=
  ((segments content size).flatMap Phdr.pages ++ stackPages).map page

/-- No user page is mapped that was not, and no frame is taken or free that was not, but
for tables. -/
structure Conserved (d : ℕ) (s s' : Vmm) : Prop where
  pages : ∀ v, 0x400000 ≤ v → v < userStackTop → mmu s.memory s.cr3 v = none →
    mmu s'.memory s'.cr3 v = none
  frames : ∀ f, used s'.pmm f = true ↔ used s.pmm f = true ∨ TableFrame s' d f

theorem mappedPages_create (content : Bytes) (size : ℕ) :
    mappedPages (accesses content size ++ stackPages.map .map) = programPages content size := by
  rw [mappedPages, mapped_append, accesses, mapped_accesses, mapped_map]
  rfl

/-- The last page of the stack shares its table with the one before, so no page is lost
when all could be had. -/
theorem Image.lost_eq_nil {lost : List ℕ}
    (h : Image d s₀ s (ds ++ stackPages.map .map) taken lost) : lost = [] := by
  by_contra hne
  obtain ⟨q, -, hpages, hno⟩ := h.incomplete hne
  have hstack : mappedPages (stackPages.map .map : List (Access ℕ UInt8)) =
      [0xBFFFF, 0xBFFFE, 0xBFFFD] ++ [0xBFFFC] := by decide
  rw [mappedPages_append, hstack, ← List.append_assoc] at hpages
  obtain ⟨hinit, hlast⟩ := List.append_inj' hpages rfl
  obtain rfl : 0xBFFFC = q := List.singleton_inj.1 hlast
  have hmem : 0xBFFFD ∈ taken.map Prod.fst := by
    rw [← List.mem_reverse, ← hinit]
    simp
  cases hf : taken.lookup 0xBFFFD with
  | none => exact lookup_eq_none.1 hf hmem
  | some f =>
      -- pages `0xBFFFD` and `0xBFFFC` have the same table
      exact hno (lookup_eq_some.1 (h.entry _ f hf)).1

/-- What `process_create` has made when it succeeds. -/
theorem Confined.created (h : Confined 0xFFC00000 content node.size)
    (hspace : AddressSpace k.vmm d) (hopen : Opened k.fs node content bs)
    (hcreate : processCreate node k = .done (some proc) k₁) :
    (∃ taken, Image d k.vmm k₁.vmm (accesses content node.size ++ stackPages.map .map) taken []) ∧
      proc.mappedPages = ((segments content node.size).flatMap Phdr.pages ++ stackPages).take
        processMaxPages := by
  rcases processCreate_cases hopen with ⟨k', hrun, -⟩ | ⟨addr, kstack, bs₂, k₂, hrun, hprep, -⟩
  · rw [hrun] at hcreate
    cases hcreate
  rw [hrun] at hcreate
  have hsafe := h.safe_create (by decide)
  obtain ⟨-, hpages, hran⟩ := (createWith_sat addr kstack
    (J := fun ds => Ran k₂.fs bs₂ node content d k₂ _ ds ds)
    (hsafe.loads le_rfl (List.prefix_append _ _) k₂) List.prefix_rfl
    (.start (hprep.vmm.symm ▸ hspace) hprep.opened)).of_eq_done hcreate
  obtain ⟨taken, lost, himage⟩ := hran.image
  rw [hprep.vmm] at himage
  obtain rfl := himage.lost_eq_nil
  exact ⟨⟨taken, himage⟩, hpages⟩

/-- The frames of distinct pages are found, and only those. -/
theorem nodup_of_lookup (hnodup : (taken.map Prod.snd).Nodup)
    (h : ∀ p ∈ taken, taken.lookup p.1 = some p.2) : (taken.map Prod.fst).Nodup := by
  refine List.Nodup.map_on (fun p hp q hq heq => ?_) hnodup.of_map
  have hsame : p.2 = q.2 := by
    have hq' := h q hq
    rw [← heq, h p hp] at hq'
    exact Option.some.inj hq'
  exact Prod.ext heq hsame

theorem lookup_of_nodup (hnodup : (taken.map Prod.fst).Nodup) {p : ℕ × ℕ} (hp : p ∈ taken) :
    taken.lookup p.1 = some p.2 := by
  cases hf : taken.lookup p.1 with
  | none => exact absurd (List.mem_map_of_mem hp) (lookup_eq_none.1 hf)
  | some f =>
      obtain ⟨xs, ys, rfl, -⟩ := List.lookup_eq_some_iff.1 hf
      have heq := List.inj_on_of_nodup_map hnodup hp
        (List.mem_append_right _ List.mem_cons_self : (p.1, f) ∈ xs ++ (p.1, f) :: ys) rfl
      rw [heq]

/-- The frame of a page that was taken is above the kernel. -/
theorem Image.frame_bound (h : Image d s₀ s ds taken []) (h₀ : AddressSpace s₀ d) {q e : ℕ}
    (hq : q ∈ mappedPages ds) (he : lookup s.memory d q = some e) : 1024 ≤ frameOf e := by
  cases hf : taken.lookup q with
  | none =>
      refine absurd (lookup_eq_none.1 hf) (not_not.2 ?_)
      rwa [h.complete rfl, List.mem_reverse]
  | some f =>
      obtain ⟨hfree, hlt, -⟩ := h.free f (Or.inl (lookup_mem hf).2)
      rw [h.entry q f hf] at he
      obtain rfl := Option.some.inj he
      rw [frameOf_userEntry hlt]
      by_contra hlow
      rw [h₀.handout.reserved f (by omega)] at hfree
      cases hfree

section Conserved

variable {m : Bytes} {n : ℕ}

/-- Memory that differs from that of `s` outside of the tables only, as after a run of a
program. -/
def SameTables (d : ℕ) (s : Vmm) (m : Bytes) : Prop :=
  ∀ g x, x < 4096 → TableFrame s d g → m (g * 4096 + x) = s.memory (g * 4096 + x)

theorem SameTables.tableFrame_iff (hm : SameTables d s m) (h : AddressSpace s d) (g : ℕ) :
    TableFrame { s with memory := m } d g ↔ TableFrame s d g := by
  obtain ⟨-, hdir, -⟩ := h.withMemory hm
  unfold TableFrame
  refine or_congr Iff.rfl (exists_congr fun i => and_congr_right fun hi => ?_)
  dsimp only
  rw [hdir i (by omega)]

/-- If everything is given back, every frame taken is that of a recorded page. -/
theorem Image.lookup_of_conserved (h : Image d s₀ s ds taken []) (hm : SameTables d s m)
    {s₃ : Vmm} (hrel : Released d { s with memory := m } s₃ ((mappedPages ds).take n))
    (hcons : Conserved d s₀ s₃) {p : ℕ × ℕ} (hp : p ∈ taken) :
    taken.lookup p.1 = some p.2 ∧ p.1 ∈ (mappedPages ds).take n := by
  have hmem : p.2 ∈ taken.map Prod.snd := List.mem_map_of_mem hp
  obtain ⟨hfree, -, htable⟩ := h.free p.2 (Or.inl hmem)
  have hfreed : ¬ used s₃.pmm p.2 = true := by
    rw [hcons.frames, hrel.tables, hm.tableFrame_iff h.space, hfree]
    simpa using htable
  rw [hrel.usedIff] at hfreed
  simp only [not_and, not_forall, not_not] at hfreed
  obtain ⟨q, hq, hmemq, e, he, hframe⟩ := hfreed (h.taken_used (Or.inl hmem))
  have hlook : lookup s.memory d q = some e := by
    rw [← (h.space.withMemory hm).2.2 q hq]
    exact he
  cases hf : taken.lookup q with
  | none =>
      refine absurd (lookup_eq_none.1 hf) (not_not.2 ?_)
      rw [h.complete rfl, List.mem_reverse]
      exact List.mem_of_mem_take hmemq
  | some f =>
      have hentry := h.entry q f hf
      rw [hlook] at hentry
      obtain rfl := Option.some.inj hentry
      rw [frameOf_userEntry (h.free f (Or.inl (lookup_mem hf).2)).2.1] at hframe
      obtain ⟨xs, ys, hsplit, -⟩ := List.lookup_eq_some_iff.1 hf
      have hqf : (q, f) ∈ taken := by
        rw [hsplit]
        simp
      have heq : (q, f) = p := List.inj_on_of_nodup_map (List.nodup_append.1 h.nodup).1 hqf hp hframe
      rw [← heq]
      exact ⟨hf, hmemq⟩

/-- What is left after the first `n` pages were released. -/
theorem Image.conserved_iff (h₀ : AddressSpace s₀ d) (h : Image d s₀ s ds taken [])
    (hm : SameTables d s m) {s₃ : Vmm}
    (hrel : Released d { s with memory := m } s₃ ((mappedPages ds).take n)) :
    Conserved d s₀ s₃ ↔ (mappedPages ds).Nodup ∧ (mappedPages ds).length ≤ n := by
  have hkeys := h.complete rfl
  constructor
  · intro hcons
    have hall := fun p (hp : p ∈ taken) => h.lookup_of_conserved hm hrel hcons hp
    have hnodup : (mappedPages ds).Nodup := by
      rw [← List.nodup_reverse, ← hkeys]
      exact nodup_of_lookup (List.nodup_append.1 h.nodup).1 fun p hp => (hall p hp).1
    have hsub : mappedPages ds ⊆ (mappedPages ds).take n := by
      intro q hq
      rw [← List.mem_reverse, ← hkeys] at hq
      obtain ⟨p, hp, rfl⟩ := List.mem_map.1 hq
      exact (hall p hp).2
    have hlen := (hnodup.subperm hsub).length_le
    rw [List.length_take] at hlen
    exact ⟨hnodup, by omega⟩
  · rintro ⟨hnodup, hlen⟩
    rw [List.take_of_length_le hlen] at hrel
    have hnodup' : (taken.map Prod.fst).Nodup := by
      rw [hkeys]
      exact List.nodup_reverse.2 hnodup
    have hlook := (h.space.withMemory hm).2.2
    refine ⟨fun v hlow hhigh hnone => ?_, fun f => ?_⟩
    · have hwin : v / 4096 < windowPage := by
        unfold userStackTop at hhigh
        unfold windowPage
        omega
      rw [h₀.mmu_eq, Option.map_eq_none_iff] at hnone
      rw [hrel.space.mmu_eq, Option.map_eq_none_iff]
      by_cases hmem : v / 4096 ∈ mappedPages ds
      · exact hrel.gone _ hwin hmem
      · rw [hrel.others _ hwin hmem, hlook _ hwin, h.others _ hwin (lookup_eq_none.2 ?_)]
        · exact hnone
        · rwa [hkeys, List.mem_reverse]
    · rw [hrel.usedIff, hrel.tables, hm.tableFrame_iff h.space, h.usedIff]
      constructor
      · rintro ⟨hf | hf | hf | hf, hother⟩
        · exact Or.inl hf
        · obtain ⟨p, hp, rfl⟩ := List.mem_map.1 hf
          have hfind := lookup_of_nodup hnodup' hp
          have hpage : p.1 ∈ mappedPages ds := by
            rw [← List.mem_reverse, ← hkeys]
            exact List.mem_map_of_mem hp
          have hwin := (h.pages _ (List.mem_map_of_mem hp)).2
          refine absurd (frameOf_userEntry (h.free p.2 (Or.inl hf)).2.1)
            (hother _ hwin hpage _ ?_)
          exact (hlook _ hwin).trans (h.entry _ _ hfind)
        · cases hf
        · exact Or.inr hf
      · intro hf
        refine ⟨hf.imp_right fun hf => Or.inr (Or.inr hf), fun q hq hmem e he heq => ?_⟩
        have he' : lookup s.memory d q = some e := (hlook q hq).symm.trans he
        cases hfind : taken.lookup q with
        | none =>
            refine lookup_eq_none.1 hfind ?_
            rwa [hkeys, List.mem_reverse]
        | some g =>
            obtain ⟨hfree, hlt, htable⟩ := h.free g (Or.inl (lookup_mem hfind).2)
            rw [h.entry q g hfind] at he'
            obtain rfl := Option.some.inj he'
            rw [frameOf_userEntry hlt] at heq
            subst heq
            rcases hf with hf | hf
            · rw [hfree] at hf
              cases hf
            · exact htable hf

end Conserved

/-- After a successful `process_create` of a confined file and a run of the program,
`process_free` gives back what was taken exactly when the pages of the program and its
stack are distinct and can all be recorded. -/
theorem processFree_conserved_iff (node : VfsNode) (k k₁ : Kernel) (d : ℕ) (content : Bytes)
    (bs : List Block) (proc : Process) (hspace : AddressSpace k.vmm d)
    (hopen : Opened k.fs node content bs) (hconf : Confined 0xFFC00000 content node.size)
    (hcreate : processCreate node k = .done (some proc) k₁) (m : Bytes)
    (hm : SameTables d k₁.vmm m) (k₂ : Kernel) (hk₂ : k₂.vmm = { k₁.vmm with memory := m }) :
    ∃ k₃, processFree proc k₂ = .done () k₃ ∧ (Conserved d k.vmm k₃.vmm ↔
      (programPages content node.size).Nodup ∧
        (programPages content node.size).length ≤ processMaxPages) := by
  obtain ⟨⟨taken, himage⟩, hpages⟩ := hconf.created hspace hopen hcreate
  have hsafe := hconf.safe_create (by decide)
  have hsame := himage.space.withMemory hm
  have hstart : Released d k₂.vmm k₂.vmm [] := .start (by
    rw [hk₂]
    exact hsame.1)
  have hvs : ∀ v ∈ proc.mappedPages, v < 0xFFC00000 ∧
      ∀ e, lookup k₂.vmm.memory d (page v) = some e → 1024 ≤ frameOf e := by
    intro v hv
    rw [hpages] at hv
    have hv := List.mem_of_mem_take hv
    have hmem : v ∈ mapped (accesses content node.size ++ stackPages.map .map) := by
      rw [mapped_append, accesses, mapped_accesses, mapped_map]
      exact hv
    have hrange := hsafe.mem_mapped hmem
    refine ⟨hrange.2, fun e he => ?_⟩
    have hwin : page v < windowPage := by
      unfold windowPage
      rw [page_eq]
      omega
    rw [hk₂] at he
    exact himage.frame_bound hspace (List.mem_map_of_mem hmem) ((hsame.2.2 _ hwin).symm.trans he)
  obtain ⟨k₃, hk₃, hrel⟩ := unmapPages_spec hstart hvs
  refine ⟨free proc.addr (free proc.kstack k₃), by rw [processFree, hk₃, Outcome.bind_done], ?_⟩
  rw [← mappedPages_create]
  refine himage.conserved_iff hspace hm (n := processMaxPages) ?_
  rw [hpages, List.nil_append, List.map_take, hk₂] at hrel
  rw [mappedPages_create]
  exact hrel

/-! ### On the small machine -/

theorem processCreate_smallProgram :
    (processCreate (programNode smallProgram) (programKernel smallProgram)).Sat
      (fun r _ => r.isSome = true) fun _ => False := by
  decide +kernel

/-- Two pages and the stack are given back. -/
theorem processFree_conserved_small :
    ∃ proc k₁ k₃, processCreate (programNode smallProgram) (programKernel smallProgram) =
        .done (some proc) k₁ ∧ processFree proc k₁ = .done () k₃ ∧
      Conserved 1024 (programKernel smallProgram).vmm k₃.vmm := by
  obtain ⟨r, k₁, hk₁, hr⟩ := processCreate_smallProgram.exists_done
  obtain ⟨proc, rfl⟩ := Option.isSome_iff_exists.1 hr
  obtain ⟨k₃, hk₃, hiff⟩ := processFree_conserved_iff (programNode smallProgram)
    (programKernel smallProgram) k₁ 1024 (programContent smallProgram) initialBlocks proc
    addressSpace_small (opened_program length_smallProgram) (by decide +kernel) hk₁
    k₁.vmm.memory (fun _ _ _ _ => rfl) k₁ rfl
  exact ⟨proc, k₁, k₃, hk₁, hk₃, hiff.2 ⟨by decide +kernel, by decide +kernel⟩⟩

theorem processFree_sharedPage :
    ((processCreate (programNode sharedPage) (programKernel sharedPage)).bind fun r k₁ =>
      match r with
      | none => .stuck k₁
      | some proc => (processFree proc k₁).bind fun _ k₃ => .done proc k₃).Sat
      (fun _ k₃ => used k₃.vmm.pmm 1028 = true ∧
        ∀ i < 1023, ¬ (Present (word k₃.vmm.memory 1024 i) ∧
          frameOf (word k₃.vmm.memory 1024 i) = 1028)) fun _ => False := by
  decide +kernel

/-- The frame that the shared page had first is not given back. -/
theorem not_conserved_sharedPage :
    AddressSpace (programKernel sharedPage).vmm 1024 ∧
      Opened (programKernel sharedPage).fs (programNode sharedPage) (programContent sharedPage)
        initialBlocks ∧
      Confined userStackTop (programContent sharedPage) (programNode sharedPage).size ∧
      ∃ proc k₁ k₃, processCreate (programNode sharedPage) (programKernel sharedPage) =
          .done (some proc) k₁ ∧ processFree proc k₁ = .done () k₃ ∧
        ¬ Conserved 1024 (programKernel sharedPage).vmm k₃.vmm := by
  refine ⟨addressSpace_small, opened_program (by decide +kernel), by decide +kernel, ?_⟩
  obtain ⟨proc, k₃, hrun, hused, htable⟩ := processFree_sharedPage.exists_done
  obtain ⟨r, k₁, hcreate, hrest⟩ := Outcome.bind_eq_done hrun
  cases r with
  | none => cases hrest
  | some proc' =>
      obtain ⟨_, k₃', hfree, heq⟩ := Outcome.bind_eq_done hrest
      obtain ⟨-, rfl⟩ := Outcome.done.inj heq
      refine ⟨proc', k₁, k₃', hcreate, hfree, fun h => ?_⟩
      rcases (h.frames 1028).1 hused with hbefore | hdir | ⟨i, hi, hp, hframe⟩
      · exact absurd hbefore (by decide +kernel)
      · exact absurd hdir (by decide)
      · exact htable i hi ⟨hp, hframe⟩

end Loader

end Yotos
