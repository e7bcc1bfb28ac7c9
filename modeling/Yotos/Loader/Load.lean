import Yotos.Loader.Confined
import Mathlib.Data.List.Pairwise

/-!
# What the program finds in memory

The segments of a file that is laid out well are apart as ranges of addresses, yet two
of them may meet in one page. The page is then mapped again for the later one, to a
frame with whatever it held before, and the bytes of the earlier one are gone. With
segments that share no page the program finds all its bytes.
-/

namespace Yotos

namespace Loader

open Bytes Library Library.Access Kheap
open Fat16 (Fs VfsNode)
open Vmm
open Pmm (used pmmngrAllocBlock)

variable {fs₀ : Fs} {bs₀ : List Block} {node : VfsNode} {content : Bytes} {k : Kernel}
  {d v w top size n : ℕ} {s₀ s : Vmm} {ds es all : List (Access ℕ UInt8)} {ps : List ℕ}
  {taken : List (ℕ × ℕ)} {lost : List ℕ} {ph : Phdr} {phs : List Phdr}

/-- The segment is in the user range below the stack, and the file has its bytes. -/
structure Phdr.Placed (size : ℕ) (ph : Phdr) : Prop where
  low : 0x400000 ≤ ph.pVaddr
  high : ph.pVaddr + ph.pMemsz ≤ 0xBFFFC000
  filesz : ph.pFilesz ≤ ph.pMemsz
  inFile : ph.pOffset + ph.pFilesz ≤ size

instance : Decidable (ph.Placed size) :=
  decidable_of_iff (0x400000 ≤ ph.pVaddr ∧ ph.pVaddr + ph.pMemsz ≤ 0xBFFFC000 ∧
      ph.pFilesz ≤ ph.pMemsz ∧ ph.pOffset + ph.pFilesz ≤ size)
    ⟨fun h => ⟨h.1, h.2.1, h.2.2.1, h.2.2.2⟩, fun h => ⟨h.low, h.high, h.filesz, h.inFile⟩⟩

/-- The two segments are apart as ranges of addresses. -/
def Phdr.Apart (ph ph' : Phdr) : Prop :=
  ph.pVaddr + ph.pMemsz ≤ ph'.pVaddr ∨ ph'.pVaddr + ph'.pMemsz ≤ ph.pVaddr

instance (ph ph' : Phdr) : Decidable (ph.Apart ph') := inferInstanceAs (Decidable (_ ∨ _))

/-- The layout that a linker gives a file. -/
structure WellPlaced (content : Bytes) (size : ℕ) : Prop where
  placed : ∀ ph ∈ loadables content, ph.Placed size
  apart : (loadables content).Pairwise Phdr.Apart

/-- No two segments share a page. -/
def PagesApart (content : Bytes) : Prop :=
  (loadables content).Pairwise fun ph ph' => ∀ v ∈ ph.pages, v ∉ ph'.pages

instance : Decidable (PagesApart content) :=
  inferInstanceAs (Decidable ((loadables content).Pairwise _))

/-- The program sees its segments. -/
def Loaded (content : Bytes) (s : Vmm) : Prop :=
  ∀ ph ∈ loadables content,
    (∀ x < ph.pFilesz, userByte s (ph.pVaddr + x) = some (content (ph.pOffset + x))) ∧
      ∀ x, ph.pFilesz ≤ x → x < ph.pMemsz → userByte s (ph.pVaddr + x) = some 0

/-- The next `n` allocations succeed. -/
def CanAlloc : ℕ → Pmm → Prop
  | 0, _ => True
  | n + 1, pmm => (pmmngrAllocBlock pmm).1 ≠ 0 ∧ CanAlloc n (pmmngrAllocBlock pmm).2

instance instDecidableCanAlloc : (n : ℕ) → (pmm : Pmm) → Decidable (CanAlloc n pmm)
  | 0, _ => instDecidableTrue
  | n + 1, pmm =>
      have := instDecidableCanAlloc n (pmmngrAllocBlock pmm).2
      inferInstanceAs (Decidable (_ ∧ _))

/-! ### The pages of a segment -/

theorem Phdr.mem_pages (hfit : ph.pVaddr + ph.pMemsz + pageSize ≤ 2 ^ 32) :
    w ∈ ph.pages ↔ 4096 ∣ w ∧ ph.pVaddr < w + 4096 ∧ w < ph.pVaddr + ph.pMemsz := by
  have hend : ph.segEnd = (ph.pVaddr + ph.pMemsz + 4095) / 4096 * 4096 := by
    rw [Phdr.segEnd, pageSize, Nat.mod_eq_of_lt (by
      unfold pageSize at hfit
      omega)]
    omega
  have hstart : ph.segStart = ph.pVaddr / 4096 * 4096 := rfl
  rw [Phdr.pages, List.mem_map, hend, hstart, pageSize]
  constructor
  · rintro ⟨i, hi, rfl⟩
    have hi := List.mem_range.1 hi
    omega
  · rintro ⟨⟨q, rfl⟩, hlow, hhigh⟩
    refine ⟨q - ph.pVaddr / 4096, List.mem_range.2 ?_, ?_⟩ <;> omega

theorem Phdr.Placed.fits (h : ph.Placed size) : ph.pVaddr + ph.pMemsz + pageSize ≤ 2 ^ 32 := by
  have := h.high
  unfold pageSize
  omega

theorem Phdr.Placed.whole (h : ph.Placed size) : ph.Whole size := by
  have := h.inFile
  unfold Phdr.Whole Phdr.fileBytes
  omega

theorem Phdr.Placed.extent (h : ph.Placed size) : ph.extent size = ph.pMemsz := by
  rw [Phdr.extent, if_pos h.whole]
  exact Nat.max_eq_right h.filesz

/-- The page of a byte of the segment. -/
theorem Phdr.Placed.page_mem (h : ph.Placed size) {x : ℕ} (hx : x < ph.pMemsz) :
    (ph.pVaddr + x) / 4096 * 4096 ∈ ph.pages :=
  (Phdr.mem_pages h.fits).2 ⟨Nat.dvd_mul_left _ _, by omega, by omega⟩

theorem confinedFrom_of_placed (h : ∀ ph ∈ phs, ph.Placed size) :
    ConfinedFrom userStackTop size ps phs := by
  induction phs generalizing ps with
  | nil => trivial
  | cons ph phs ih =>
      have hph := h ph List.mem_cons_self
      refine ⟨fun v hv => ?_, fun x hx => ?_, ih fun ph' hph' => h ph' (List.mem_cons_of_mem _ hph')⟩
      · obtain ⟨⟨q, rfl⟩, hlow, hhigh⟩ := (Phdr.mem_pages hph.fits).1 hv
        have := hph.low
        have := hph.high
        unfold userStackTop
        omega
      · rw [hph.extent] at hx
        have := hph.high
        rw [Nat.mod_eq_of_lt (by omega)]
        refine List.mem_append_right _ (List.mem_map.2 ⟨_, hph.page_mem hx, ?_⟩)
        rw [page_eq, page_eq]
        omega

theorem mem_loadables (h : ph ∈ segments content size) : ph ∈ loadables content := by
  obtain ⟨i, hi, rfl, hload⟩ := mem_segments h
  rw [loadables, List.mem_filter]
  exact ⟨List.mem_map_of_mem (List.mem_range.2 hi), decide_eq_true hload⟩

theorem WellPlaced.confined (h : WellPlaced content size) : Confined userStackTop content size :=
  confinedFrom_of_placed fun ph hph => h.placed ph (mem_loadables hph)

/-! ### What the accesses leave -/

theorem mem_stores {x : UInt8} : .write v x ∈ ph.stores content n ↔
    ∃ y < n, v = (ph.pVaddr + y) % 2 ^ 32 ∧ x = ph.byteAt content y := by
  rw [Phdr.stores, List.mem_map]
  constructor
  · rintro ⟨y, hy, heq⟩
    obtain ⟨rfl, rfl⟩ := Access.write.inj heq
    exact ⟨y, List.mem_range.1 hy, rfl, rfl⟩
  · rintro ⟨y, hy, rfl, rfl⟩
    exact ⟨y, List.mem_range.2 hy, rfl⟩

theorem Phdr.map_mem_accesses : .map v ∈ ph.accesses content size ↔ v ∈ ph.pages := by
  rw [← mem_mapped, Phdr.accesses, mapped_append, mapped_map, Phdr.stores, mapped_write,
    List.append_nil]

/-- A placed segment is written in its range. -/
theorem Phdr.Placed.mem_accesses (h : ph.Placed size) {x : UInt8}
    (hmem : .write v x ∈ ph.accesses content size) :
    ∃ y < ph.pMemsz, v = ph.pVaddr + y ∧ x = ph.byteAt content y := by
  rw [Phdr.accesses, List.mem_append] at hmem
  rcases hmem with hmem | hmem
  · simp at hmem
  · obtain ⟨y, hy, rfl, rfl⟩ := mem_stores.1 hmem
    rw [h.extent] at hy
    have := h.high
    exact ⟨y, hy, Nat.mod_eq_of_lt (by omega), rfl⟩

/-- Segments that are apart from `ph` do not write its bytes. -/
theorem write_not_mem (content : Bytes) (h : ∀ ph' ∈ phs, ph'.Placed size)
    (hapart : ∀ ph' ∈ phs, ph.Apart ph') {y : ℕ} (hy : y < ph.pMemsz) (x : UInt8) :
    .write (ph.pVaddr + y) x ∉ phs.flatMap (Phdr.accesses content size) := by
  intro hmem
  obtain ⟨ph', hph', hmem⟩ := List.mem_flatMap.1 hmem
  obtain ⟨z, hz, heq, -⟩ := (h ph' hph').mem_accesses hmem
  rcases hapart ph' hph' with hlt | hlt <;> omega

/-- The byte of a segment is left in place when no later segment has its page. -/
theorem visible_of_pages_apart {xs ys : List Phdr} (h : ∀ ph' ∈ ph :: ys, ph'.Placed size)
    (hapart : ∀ ph' ∈ ys, ph.Apart ph') (hpages : ∀ ph' ∈ ys, ∀ v ∈ ph.pages, v ∉ ph'.pages)
    {y : ℕ} (hy : y < ph.pMemsz) :
    visible page ((xs ++ ph :: ys).flatMap (Phdr.accesses content size)) (ph.pVaddr + y) =
      some (ph.byteAt content y) := by
  have hph := h ph List.mem_cons_self
  have hhigh := hph.high
  obtain ⟨n, hn⟩ : ∃ n, ph.pMemsz = y + 1 + n := ⟨ph.pMemsz - (y + 1), by omega⟩
  have hstores : ph.stores content (ph.extent size) = ph.stores content y ++
      .write (ph.pVaddr + y) (ph.byteAt content y) :: (List.range n).map fun x =>
        .write ((ph.pVaddr + (y + 1 + x)) % 2 ^ 32) (ph.byteAt content (y + 1 + x)) := by
    rw [hph.extent, hn, Phdr.stores_add, Phdr.stores, List.range_succ, List.map_append,
      List.append_assoc, ← Phdr.stores]
    rw [List.map_singleton, List.singleton_append, Nat.mod_eq_of_lt (by omega)]
  have hlist : (xs ++ ph :: ys).flatMap (Phdr.accesses content size) =
      (xs.flatMap (Phdr.accesses content size) ++ ph.pages.map .map ++ ph.stores content y) ++
        .write (ph.pVaddr + y) (ph.byteAt content y) :: (((List.range n).map fun x =>
          .write ((ph.pVaddr + (y + 1 + x)) % 2 ^ 32) (ph.byteAt content (y + 1 + x))) ++
          ys.flatMap (Phdr.accesses content size)) := by
    rw [List.flatMap_append, List.flatMap_cons, Phdr.accesses, hstores]
    simp
  rw [hlist]
  refine visible_of_write (fun w hw => ?_) fun x hx => ?_
  · rcases List.mem_append.1 hw with hw | hw
    · simp at hw
    · obtain ⟨ph', hph', hw⟩ := List.mem_flatMap.1 hw
      have hw := Phdr.map_mem_accesses.1 hw
      obtain ⟨⟨q, rfl⟩, -⟩ := (Phdr.mem_pages (h ph' (List.mem_cons_of_mem _ hph')).fits).1 hw
      intro heq
      refine hpages ph' hph' _ (hph.page_mem hy) ?_
      rwa [show (ph.pVaddr + y) / 4096 * 4096 = 4096 * q by
        rw [page_eq, page_eq] at heq
        omega]
  · rcases List.mem_append.1 hx with hx | hx
    · obtain ⟨z, hz, heq⟩ := List.mem_map.1 hx
      obtain ⟨heq, -⟩ := Access.write.inj heq
      have hz := List.mem_range.1 hz
      rw [Nat.mod_eq_of_lt (by omega)] at heq
      omega
    · exact write_not_mem content (fun ph' hph' => h ph' (List.mem_cons_of_mem _ hph')) hapart hy x hx

/-- Nothing of an earlier segment is left in the page of a later one. -/
theorem visible_of_shared {xs ys : List Phdr} {ph' : Phdr} (h : ∀ ph'' ∈ ph' :: ys, ph''.Placed size)
    (hapart : ∀ ph'' ∈ ph' :: ys, ph.Apart ph'') (hw : w ∈ ph'.pages) {y : ℕ}
    (hy : y < ph.pMemsz) (hpage : page w = page (ph.pVaddr + y)) :
    visible page ((xs ++ ph' :: ys).flatMap (Phdr.accesses content size)) (ph.pVaddr + y) =
      none := by
  obtain ⟨us, vs, hsplit⟩ := List.append_of_mem hw
  have hlist : (xs ++ ph' :: ys).flatMap (Phdr.accesses content size) =
      (xs.flatMap (Phdr.accesses content size) ++ us.map .map) ++ .map w :: (vs.map .map ++
        ph'.stores content (ph'.extent size) ++ ys.flatMap (Phdr.accesses content size)) := by
    rw [List.flatMap_append, List.flatMap_cons, Phdr.accesses, hsplit]
    simp
  rw [hlist]
  refine visible_of_map hpage fun x hx => ?_
  refine write_not_mem content h hapart hy x ?_
  rw [List.flatMap_cons, Phdr.accesses]
  simp only [List.mem_append] at hx ⊢
  rcases hx with (hx | hx) | hx
  · simp at hx
  · exact Or.inl (Or.inr hx)
  · exact Or.inr hx

/-! ### What is in memory -/

namespace Image

/-- The program sees what the accesses leave. -/
theorem userByte_of_visible {x : UInt8} (h : Image d s₀ s ds taken lost)
    (hx : visible page ds v = some x) : userByte s v = some x := by
  have hpage := h.written v x (write_mem_of_visible hx)
  cases hf : taken.lookup (page v) with
  | none => exact absurd hpage (lookup_eq_none.1 hf)
  | some f =>
      have hv : page v * 4096 + v % 4096 = v := by
        rw [page_eq]
        omega
      have hdata := h.data _ f hf (v % 4096) (Nat.mod_lt _ (by decide))
      rw [hv, hx, Option.getD_some] at hdata
      rw [h.space.userByte_eq, show lookup s.memory d (v / 4096) = _ from h.entry _ f hf,
        Option.map_some, frameOf_userEntry (h.free f (Or.inl (lookup_mem hf).2)).2.1, hdata]

/-- Where nothing is left it sees what the frame held. -/
theorem userByte_of_stale (h : Image d s₀ s ds taken []) (hmem : page v ∈ mappedPages ds)
    (hx : visible page ds v = none) :
    ∃ f, used s₀.pmm f = false ∧ userByte s v = some (s₀.memory (f * 4096 + v % 4096)) := by
  cases hf : taken.lookup (page v) with
  | none =>
      refine absurd (lookup_eq_none.1 hf) (not_not.2 ?_)
      rwa [h.complete rfl, List.mem_reverse]
  | some f =>
      have hv : page v * 4096 + v % 4096 = v := by
        rw [page_eq]
        omega
      obtain ⟨hfree, hlt, -⟩ := h.free f (Or.inl (lookup_mem hf).2)
      have hdata := h.data _ f hf (v % 4096) (Nat.mod_lt _ (by decide))
      rw [hv, hx, Option.getD_none] at hdata
      refine ⟨f, hfree, ?_⟩
      rw [h.space.userByte_eq, show lookup s.memory d (v / 4096) = _ from h.entry _ f hf,
        Option.map_some, frameOf_userEntry hlt, hdata]

end Image

theorem CanAlloc.mono {pmm : Pmm} {m : ℕ} (h : CanAlloc n pmm) (hm : m ≤ n) : CanAlloc m pmm := by
  induction n generalizing m pmm with
  | zero =>
      obtain rfl : m = 0 := by omega
      trivial
  | succ n ih =>
      cases m with
      | zero => trivial
      | succ m => exact ⟨h.1, ih h.2 (by omega)⟩

theorem CanAlloc.not_exhausted {pmm : Pmm} (h : CanAlloc (n + 1) pmm) : ¬ Exhausted pmm :=
  fun hex => h.1 (congrArg Prod.fst hex)

/-- With two frames at hand a page can be had. -/
theorem Image.alloc_of_canAlloc (h : Image d s₀ s ds taken []) (hlow : 0x400000 ≤ v)
    (hhigh : v < 0xFFC00000) (hcan : CanAlloc (n + 2) s.pmm) :
    ∃ s' taken', vmmAllocPage v userFlags s = some (v, s') ∧
      Image d s₀ s' (ds ++ [.map v]) taken' [] ∧ CanAlloc n s'.pmm := by
  have hwin : page v < windowPage := by
    unfold windowPage
    rw [page_eq]
    omega
  rcases h.space.alloc (by omega : 0x1000 ≤ v) hhigh with ⟨hex, -⟩ | ⟨f, s', hs', hlose⟩ |
    ⟨f, s', hs', hadd⟩
  · exact absurd hex hcan.not_exhausted
  · refine absurd hlose.exhausted ?_
    rw [hlose.pmm]
    exact CanAlloc.not_exhausted hcan.2
  · refine ⟨s', _, hs', h.added hadd hwin, ?_⟩
    rcases hadd.pmm with heq | heq
    · rw [heq]
      exact CanAlloc.mono hcan.2 (by omega)
    · rw [heq]
      exact hcan.2.2

/-- A run that has every frame it asks for. -/
structure Ample (fs₀ : Fs) (bs₀ : List Block) (node : VfsNode) (content : Bytes) (d : ℕ)
    (s₀ : Vmm) (all ds : List (Access ℕ UInt8)) (k : Kernel) : Prop where
  held : Held fs₀ bs₀ node content k.fs
  along : ds <+: all
  image : ∃ taken, Image d s₀ k.vmm ds taken []
  frames : CanAlloc (2 * ((mapped all).length - (mapped ds).length)) k.vmm.pmm

theorem Safe.ample (h : Safe top [] all) (htop : top ≤ 0xFFC00000)
    (hall : all = accesses content node.size) (hroom : ReadRoom fs₀ bs₀)
    (hacc : Accepted content node.size) :
    Loads fs₀ bs₀ node content all (Ample fs₀ bs₀ node content d s₀ all) (fun _ => False)
      (fun _ => False) where
  map {ds v k} hpre hran := by
    obtain ⟨hlow, hhigh⟩ := h.map hpre
    obtain ⟨taken, himage⟩ := hran.image
    have hlen : (mapped ds).length + 1 ≤ (mapped all).length := by
      obtain ⟨es, hes⟩ := hpre
      rw [← hes, mapped_append, mapped_append, mapped_singleton, List.length_append,
        List.length_append, List.length_singleton]
      omega
    obtain ⟨n, hn⟩ : ∃ n, 2 * ((mapped all).length - (mapped ds).length) = n + 2 :=
      ⟨2 * ((mapped all).length - (mapped ds).length) - 2, by omega⟩
    have hframes := hran.frames
    rw [hn] at hframes
    obtain ⟨s', taken', hs', himage', hcan⟩ := himage.alloc_of_canAlloc hlow
      (by omega : v < 0xFFC00000) hframes
    rw [allocPage, show pagePresent ||| pageWritable ||| pageUser = userFlags from rfl, hs']
    rw [Outcome.sat_done, if_neg (by omega)]
    refine ⟨hran.held, hpre, ⟨taken', himage'⟩, ?_⟩
    rw [mapped_append, mapped_singleton, List.length_append, List.length_singleton]
    exact hcan.mono (by omega)
  write {ds v x k} hpre hran := by
    have hmem := h.write hpre
    obtain ⟨w, hw, -, hhigh⟩ := (h.of_prefix ((List.prefix_append _ _).trans hpre)).exists_page hmem
    have hwin : page v < windowPage := by
      unfold windowPage
      rw [hw, page_eq]
      omega
    obtain ⟨taken, himage⟩ := hran.image
    rcases himage.store hmem hwin x with ⟨hno, -⟩ | ⟨phys, hphys, himage'⟩
    · exact absurd rfl hno
    · rw [storeByte, hphys]
      refine ⟨hran.held, hpre, ⟨taken, himage'⟩, ?_⟩
      rw [mapped_append, show mapped [Access.write v x] = [] from rfl, List.append_nil]
      exact hran.frames
  accesses := hall ▸ List.prefix_rfl
  held hran := hran.held
  read hran hvmm hlog hheld := ⟨hheld, hran.along, by
    rw [hvmm]
    exact hran.image, by
    rw [hvmm]
    exact hran.frames⟩
  stop hran hstop := by
    rcases hstop with hno | ⟨-, hno⟩
    · exact hno hroom
    · exact hno hacc

/-! ### When the program sees its segments -/

/-- Memory that differs from that of `s` in free frames only. -/
def SameUsed (s : Vmm) (m : Bytes) : Prop :=
  ∀ f y, y < 4096 → used s.pmm f = true → m (f * 4096 + y) = s.memory (f * 4096 + y)

theorem SameUsed.addressSpace {m : Bytes} (h : SameUsed s m) (hspace : AddressSpace s d) :
    AddressSpace { s with memory := m } d :=
  (hspace.withMemory fun g y hy hg => h g y hy (hspace.tableFrame_used hg)).1

theorem exists_of_not_pairwise {α : Type*} {R : α → α → Prop} {l : List α} (h : ¬ l.Pairwise R) :
    ∃ xs a ys b zs, l = xs ++ a :: (ys ++ b :: zs) ∧ ¬ R a b := by
  induction l with
  | nil => exact absurd List.Pairwise.nil h
  | cons a l ih =>
      by_cases hhead : ∀ b ∈ l, R a b
      · obtain ⟨xs, a', ys, b, zs, rfl, hno⟩ :=
          ih fun htail => h (List.pairwise_cons.2 ⟨hhead, htail⟩)
        exact ⟨a :: xs, a', ys, b, zs, rfl, hno⟩
      · simp only [not_forall] at hhead
        obtain ⟨b, hb, hno⟩ := hhead
        obtain ⟨ys, zs, rfl⟩ := List.append_of_mem hb
        exact ⟨[], a, ys, b, zs, rfl, hno⟩

/-- With segments that share no page the program sees all its bytes. -/
theorem Image.loaded (h : Image d s₀ s (accesses content size) taken lost)
    (hplaced : WellPlaced content size) (hacc : Accepted content size)
    (hapart : PagesApart content) : Loaded content s := by
  have hbyte : ∀ ph ∈ loadables content, ∀ x < ph.pMemsz,
      userByte s (ph.pVaddr + x) = some (ph.byteAt content x) := by
    intro ph hph x hx
    obtain ⟨xs, ys, hsplit⟩ := List.append_of_mem hph
    have hsegs := hplaced.apart
    have hpages : (loadables content).Pairwise _ := hapart
    rw [hsplit, List.pairwise_append] at hsegs hpages
    refine h.userByte_of_visible ?_
    rw [accesses, hacc.segments_eq, hsplit]
    refine visible_of_pages_apart (fun ph' hph' => hplaced.placed ph' ?_)
      (List.pairwise_cons.1 hsegs.2.1).1 (List.pairwise_cons.1 hpages.2.1).1 hx
    rw [hsplit]
    exact List.mem_append_right _ hph'
  intro ph hph
  have hle := (hplaced.placed ph hph).filesz
  refine ⟨fun x hx => ?_, fun x hx hx' => ?_⟩
  · rw [hbyte ph hph x (by omega), Phdr.byteAt, if_pos hx]
  · rw [hbyte ph hph x hx', Phdr.byteAt, if_neg (by omega)]

/-- With two segments in a page there are contents of the free frames that show. -/
theorem exists_not_loaded (max : ℕ) (hspace : AddressSpace k.vmm d) (hopen : Opened k.fs node content bs₀)
    (hplaced : WellPlaced content node.size) (hroom : ReadRoom k.fs bs₀)
    (hacc : Accepted content node.size) (hapart : ¬ PagesApart content)
    (hframes : CanAlloc (2 * ((loadables content).flatMap Phdr.pages).length) k.vmm.pmm) :
    ∃ m, SameUsed k.vmm m ∧ ∃ entry pages k',
      elfLoad node max [] { k with vmm := { k.vmm with memory := m } } =
        .done (entry, pages) k' ∧ entry ≠ 0 ∧ ¬ Loaded content k'.vmm := by
  obtain ⟨xs, ph, ys, ph', zs, hsplit, hshare⟩ := exists_of_not_pairwise hapart
  simp only [not_forall, not_not] at hshare
  obtain ⟨w, hw, hw'⟩ := hshare
  have hmem : ∀ {q}, q ∈ ph :: (ys ++ ph' :: zs) → q ∈ loadables content := fun hq => by
    rw [hsplit]
    exact List.mem_append_right _ hq
  have hph := hplaced.placed ph (hmem List.mem_cons_self)
  have hpos : ph.pMemsz ≠ 0 := by
    have hload := (List.mem_filter.1 (hmem List.mem_cons_self)).2
    exact fun h0 => (of_decide_eq_true hload) (Or.inr h0)
  -- a byte of the earlier segment in the page
  obtain ⟨x, hx, hpage⟩ : ∃ x < ph.pMemsz, page w = page (ph.pVaddr + x) := by
    obtain ⟨⟨q, rfl⟩, hlow, hhigh⟩ := (Phdr.mem_pages hph.fits).1 hw
    rcases Nat.lt_or_ge ph.pVaddr (4096 * q) with hlt | hge
    · refine ⟨4096 * q - ph.pVaddr, by omega, ?_⟩
      rw [Nat.add_sub_cancel' (Nat.le_of_lt hlt)]
    · refine ⟨0, by omega, ?_⟩
      rw [page_eq, page_eq]
      omega
  -- what the frame holds there is not that byte
  obtain ⟨c, hc⟩ : ∃ c : UInt8, c ≠ ph.byteAt content x := by
    by_cases h0 : ph.byteAt content x = 0
    · exact ⟨1, by rw [h0]; decide⟩
    · exact ⟨0, fun h => h0 h.symm⟩
  obtain ⟨m, hm⟩ : ∃ m : Bytes, m = fun a =>
    if used k.vmm.pmm (a / 4096) then k.vmm.memory a else c := ⟨_, rfl⟩
  have hsame : SameUsed k.vmm m := by
    intro f y hy hf
    rw [hm]
    dsimp only
    rw [show (f * 4096 + y) / 4096 = f by omega, if_pos hf]
  have hsafe := confined_iff_safe.1 hplaced.confined
  have hmapped : (mapped (accesses content node.size)).length =
      ((loadables content).flatMap Phdr.pages).length := by
    rw [accesses, mapped_accesses, hacc.segments_eq]
  have hstart : Ample k.fs bs₀ node content d { k.vmm with memory := m }
      (accesses content node.size) [] { k with vmm := { k.vmm with memory := m } } :=
    ⟨hopen.held, List.nil_prefix, ⟨[], .start (hsame.addressSpace hspace)⟩, by
      rw [hmapped]
      exact hframes⟩
  have hrun := elfLoad_sat max (hsafe.ample (by decide) rfl hroom hacc) hstart
  obtain ⟨⟨entry, pages⟩, k', helf, hr⟩ := hrun.exists_done
  have hne : entry ≠ 0 := by
    intro h0
    rwa [if_pos h0] at hr
  rw [if_neg hne] at hr
  obtain ⟨-, -, -, -, hample⟩ := hr
  obtain ⟨taken, himage⟩ := hample.image
  refine ⟨m, hsame, entry, pages, k', helf, hne, fun hloaded => hc ?_⟩
  have hpw := hplaced.apart
  rw [hsplit, List.pairwise_append] at hpw
  have hafter := (List.pairwise_cons.1 hpw.2.1).1
  have hstale : visible page (accesses content node.size) (ph.pVaddr + x) = none := by
    rw [accesses, hacc.segments_eq, hsplit, List.append_cons, ← List.append_assoc]
    refine visible_of_shared (fun q hq => hplaced.placed q (hmem ?_))
      (fun q hq => hafter q ?_) hw' hx hpage
    · exact List.mem_cons_of_mem _ (List.mem_append_right _ hq)
    · exact List.mem_append_right _ hq
  have hpages : page (ph.pVaddr + x) ∈ mappedPages (accesses content node.size) := by
    rw [mappedPages, accesses, mapped_accesses, hacc.segments_eq, ← hpage]
    exact List.mem_map_of_mem (List.mem_flatMap.2 ⟨ph, hmem List.mem_cons_self, hw⟩)
  obtain ⟨f, hf, hbyte⟩ := himage.userByte_of_stale hpages hstale
  have hfilled : m (f * 4096 + (ph.pVaddr + x) % 4096) = c := by
    rw [hm]
    dsimp only
    rw [show (f * 4096 + (ph.pVaddr + x) % 4096) / 4096 = f by omega, if_neg (by
      dsimp only at hf
      rw [hf]
      decide)]
  dsimp only at hbyte
  rw [hfilled] at hbyte
  have hwant : userByte k'.vmm (ph.pVaddr + x) = some (ph.byteAt content x) := by
    obtain ⟨hfile, hzero⟩ := hloaded ph (hmem List.mem_cons_self)
    unfold Phdr.byteAt
    split_ifs with hin
    · exact hfile x hin
    · exact hzero x (by omega) hx
  exact Option.some.inj (hbyte.symm.trans hwant)

/-- For a file that is laid out well, and enough memory, the program sees its segments
after every load, whatever the free frames held, exactly when no two segments share a
page, or the file cannot be loaded at all. -/
theorem elfLoad_loaded_iff (node : VfsNode) (k : Kernel) (d max : ℕ) (content : Bytes)
    (bs : List Block) (hspace : AddressSpace k.vmm d) (hopen : Opened k.fs node content bs)
    (hplaced : WellPlaced content node.size)
    (hframes : CanAlloc (2 * ((loadables content).flatMap Phdr.pages).length) k.vmm.pmm) :
    (∀ m, SameUsed k.vmm m → ∀ entry pages k',
      elfLoad node max [] { k with vmm := { k.vmm with memory := m } } =
        .done (entry, pages) k' → entry ≠ 0 → Loaded content k'.vmm) ↔
      (ReadRoom k.fs bs → Accepted content node.size → PagesApart content) := by
  constructor
  · intro hall hroom hacc
    by_contra hapart
    obtain ⟨m, hm, entry, pages, k', hrun, hne, hnot⟩ :=
      exists_not_loaded max hspace hopen hplaced hroom hacc hapart hframes
    exact hnot (hall m hm entry pages k' hrun hne)
  · intro hcond m hm entry pages k' hrun hne
    have hr := (hplaced.confined.elfLoad max (by decide) (hm.addressSpace hspace)
      (k := { k with vmm := { k.vmm with memory := m } }) hopen).of_eq_done hrun
    rw [if_neg hne] at hr
    obtain ⟨-, hacc, hroom, -, hran⟩ := hr
    obtain ⟨taken, lost, himage⟩ := hran.image
    exact himage.loaded hplaced hacc (hcond hroom hacc)

/-- Two segments of four bytes, in two pages. -/
def twoPages : List UInt8 := programFile [⟨1, 0, 0x400FFC, 4, 4⟩, ⟨1, 4, 0x401000, 2, 4⟩]

theorem elfLoad_loaded_twoPages : AddressSpace (programKernel twoPages).vmm 1024 ∧
    ∀ m, SameUsed (programKernel twoPages).vmm m →
      ∀ entry pages k', elfLoad (programNode twoPages) 64 [] { programKernel twoPages with
          vmm := { (programKernel twoPages).vmm with memory := m } } =
        .done (entry, pages) k' → entry ≠ 0 → Loaded (programContent twoPages) k'.vmm := by
  refine ⟨addressSpace_small, ?_⟩
  exact (elfLoad_loaded_iff (programNode twoPages) (programKernel twoPages) 1024 64
    (programContent twoPages) initialBlocks addressSpace_small (opened_program (by decide))
    ⟨by decide +kernel, by decide +kernel⟩ (by decide +kernel)).2 fun _ _ => by decide +kernel

theorem loadables_sharedPage : loadables (programContent sharedPage) =
    [⟨1, 0, 0x400000, 1, 1⟩, ⟨1, 1, 0x400001, 1, 1⟩] := by
  decide +kernel

theorem elfLoad_sharedPage :
    (elfLoad (programNode sharedPage) 64 [] (programKernel sharedPage)).Sat
      (fun r k' => r.1 = 0x400000 ∧ userByte k'.vmm 0x400000 = some 0) fun _ => False := by
  decide +kernel

/-- The byte of the first one is lost. -/
theorem not_loaded_sharedPage :
    AddressSpace (programKernel sharedPage).vmm 1024 ∧
      Opened (programKernel sharedPage).fs (programNode sharedPage) (programContent sharedPage)
        initialBlocks ∧
      WellPlaced (programContent sharedPage) (programNode sharedPage).size ∧
      CanAlloc 100 (programKernel sharedPage).vmm.pmm ∧
      ∃ pages k', elfLoad (programNode sharedPage) 64 [] (programKernel sharedPage) =
          .done (0x400000, pages) k' ∧
        programContent sharedPage 0 = 0x7F ∧ userByte k'.vmm 0x400000 = some 0 ∧
        ¬ Loaded (programContent sharedPage) k'.vmm := by
  refine ⟨addressSpace_small, opened_program (by decide +kernel),
    ⟨by decide +kernel, by decide +kernel⟩, by decide +kernel, ?_⟩
  obtain ⟨⟨entry, pages⟩, k', helf, hentry, hbyte⟩ := elfLoad_sharedPage.exists_done
  obtain rfl : entry = 0x400000 := hentry
  have hfile : programContent sharedPage 0 = 0x7F := by decide +kernel
  refine ⟨pages, k', helf, hfile, hbyte, fun h => ?_⟩
  have hwant := (h ⟨1, 0, 0x400000, 1, 1⟩ (by
    rw [loadables_sharedPage]
    exact List.mem_cons_self)).1 0 (by decide)
  rw [show programContent sharedPage (0 + 0) = 0x7F from hfile] at hwant
  exact absurd (hbyte.symm.trans hwant) (by decide)

end Loader

end Yotos
