import Yotos.Loader.File

/-!
# The accesses of the loader

The file alone decides which pages `elf_load` asks for and which bytes it writes, in
which order: `accesses` lists them. A run follows the list until a page cannot be had, a
store faults, the heap has no room for a read, or the list ends. `elfLoad_sat` is the
induction along the list, for any condition `J` on the accesses done and the state.
-/

namespace Yotos

namespace Loader

open Bytes Library Library.Access Kheap
open Fat16 (Fs VfsNode)

variable {fs₀ : Fs} {bs₀ : List Block} {node : VfsNode} {content buf : Bytes} {k : Kernel}
  {offset size max : ℕ}

/-- The bytes of a segment that are written. A segment that is cut off is not cleared. -/
def Phdr.extent (size : ℕ) (ph : Phdr) : ℕ :=
  if ph.Whole size then Nat.max ph.pFilesz ph.pMemsz else ph.fileBytes size

/-- Byte `x` of a segment. -/
def Phdr.byteAt (content : Bytes) (ph : Phdr) (x : ℕ) : UInt8 :=
  if x < ph.pFilesz then content (ph.pOffset + x) else 0

/-- The stores of the first `n` bytes of a segment. -/
def Phdr.stores (content : Bytes) (ph : Phdr) (n : ℕ) : List (Access ℕ UInt8) :=
  (List.range n).map fun x => .write ((ph.pVaddr + x) % 2 ^ 32) (ph.byteAt content x)

/-- The accesses for a segment. -/
def Phdr.accesses (content : Bytes) (size : ℕ) (ph : Phdr) : List (Access ℕ UInt8) :=
  ph.pages.map .map ++ ph.stores content (ph.extent size)

/-- The accesses of `elf_load`. -/
def accesses (content : Bytes) (size : ℕ) : List (Access ℕ UInt8) :=
  (segments content size).flatMap (Phdr.accesses content size)

theorem mapped_accesses (content : Bytes) (size : ℕ) (phs : List Phdr) :
    mapped (phs.flatMap (Phdr.accesses content size)) = phs.flatMap Phdr.pages := by
  induction phs with
  | nil => rfl
  | cons ph phs ih =>
      rw [List.flatMap_cons, mapped_append, ih, Phdr.accesses, mapped_append, mapped_map,
        Phdr.stores, mapped_write, List.append_nil, List.flatMap_cons]

theorem Phdr.stores_add (content : Bytes) (ph : Phdr) (m n : ℕ) :
    ph.stores content (m + n) = ph.stores content m ++
      (List.range n).map fun x =>
        .write ((ph.pVaddr + (m + x)) % 2 ^ 32) (ph.byteAt content (m + x)) := by
  rw [Phdr.stores, List.range_add, List.map_append, List.map_map]
  rfl

/-! ### What a read does -/

/-- The file system, with the file open, as it was at `fs₀` but for the headers of the
heap. -/
def Held (fs₀ : Fs) (bs₀ : List Block) (node : VfsNode) (content : Bytes) (fs : Fs) : Prop :=
  ∃ heap bs, fs = { fs₀ with heap := heap } ∧ Opened fs node content bs ∧
    SameLive fs₀.heapStart bs₀ bs ∧ (ReadRoom fs₀ bs ↔ ReadRoom fs₀ bs₀)

theorem Opened.held (h : Opened fs₀ node content bs₀) : Held fs₀ bs₀ node content fs₀ :=
  ⟨fs₀.heap, bs₀, rfl, h, .refl _ _, Iff.rfl⟩

theorem Held.size_lt {fs : Fs} (h : Held fs₀ bs₀ node content fs) : node.size < 2 ^ 32 := by
  obtain ⟨_, _, -, hopen, -⟩ := h
  exact hopen.size_lt

/-- A read gives the bytes of the file, unless the heap has no room for it. -/
theorem readFile_sat {S : Kernel → Prop} (h : Held fs₀ bs₀ node content k.fs) (offset : ℕ)
    (hsize : size ≤ 512) (buf : Bytes) :
    (readFile node offset size buf k).Sat (fun r k' => k'.vmm = k.vmm ∧ k'.log = k.log ∧
      Held fs₀ bs₀ node content k'.fs ∧
      ((r.1 ≤ 0 ∧ ¬ ReadRoom fs₀ bs₀) ∨ (ReadRoom fs₀ bs₀ ∧
        r.1 = (min size (node.size - offset) : ℕ) ∧
        ∀ x < min size (node.size - offset), r.2 x = content (offset + x)))) S := by
  obtain ⟨heap, bs, hfs, hopen, hsame, hroom⟩ := h
  obtain ⟨got, out, heap', bs', hread, hopen', hsame', hroom', hgot⟩ :=
    hopen.vfsRead offset hsize buf
  rw [readFile, hread]
  refine ⟨rfl, rfl, ⟨heap', bs', by rw [hfs], hopen', ?_, ?_⟩, ?_⟩
  · rw [hfs] at hsame'
    exact hsame.trans hsame'
  · rw [hfs] at hroom'
    exact hroom'.trans hroom
  · have hfs' : ReadRoom fs₀ bs = ReadRoom k.fs bs := by rw [hfs]; rfl
    rwa [← hfs', hroom] at hgot

/-! ### The header that was read -/

theorem ehdrOk_congr {e e' : Bytes} (h : ∀ x < ehdrSize, e' x = e x) : ehdrOk e' = ehdrOk e := by
  have hload : ∀ o, o + 2 ≤ ehdrSize → load16 e' o = load16 e o := fun o ho =>
    load16_congr fun x _ hx => h x (by omega)
  unfold ehdrSize at h hload
  rw [ehdrOk, ehdrOk, hload 16 (by omega), hload 18 (by omega), h 0 (by omega), h 1 (by omega),
    h 2 (by omega), h 3 (by omega)]

theorem eEntry_congr {e e' : Bytes} (h : ∀ x < ehdrSize, e' x = e x) : eEntry e' = eEntry e :=
  load32_congr fun x _ hx => h x (by
    unfold ehdrSize
    omega)

theorem ePhnum_congr {e e' : Bytes} (h : ∀ x < ehdrSize, e' x = e x) : ePhnum e' = ePhnum e :=
  load16_congr fun x _ hx => h x (by
    unfold ehdrSize
    omega)

theorem phdrOffset_congr {e e' : Bytes} (h : ∀ x < ehdrSize, e' x = e x) (i : ℕ) :
    phdrOffset e' i = phdrOffset e i := by
  have h28 : load32 e' 28 = load32 e 28 := load32_congr fun x _ hx => h x (by
    unfold ehdrSize
    omega)
  have h42 : load16 e' 42 = load16 e 42 := load16_congr fun x _ hx => h x (by
    unfold ehdrSize
    omega)
  rw [phdrOffset, phdrOffset, h28, h42]

/-! ### The rules -/

section Rules

variable {all ds : List (Access ℕ UInt8)} {J : List (Access ℕ UInt8) → Kernel → Prop}
  {F S : Kernel → Prop} {ph : Phdr} {pages : List ℕ}

/-- `J` holds along a run that follows the list `all`, `F` after a page that cannot be
had, and `S` after a fault. -/
structure Follows (all : List (Access ℕ UInt8)) (J : List (Access ℕ UInt8) → Kernel → Prop)
    (F S : Kernel → Prop) : Prop where
  map : ∀ {ds v k}, ds ++ [.map v] <+: all → J ds k → (allocPage v k).Sat
    (fun p k' => if p = 0 then F k' else J (ds ++ [.map v]) k') S
  write : ∀ {ds v x k}, ds ++ [.write v x] <+: all → J ds k → (storeByte v x k).Sat
    (fun _ k' => J (ds ++ [.write v x]) k') S

/-- Along a run of `elf_load` the file can be read, which changes nothing else. `F` holds
after a failure, too. -/
structure Loads (fs₀ : Fs) (bs₀ : List Block) (node : VfsNode) (content : Bytes)
    (all : List (Access ℕ UInt8)) (J : List (Access ℕ UInt8) → Kernel → Prop)
    (F S : Kernel → Prop) : Prop extends Follows all J F S where
  accesses : accesses content node.size <+: all
  held : ∀ {ds k}, J ds k → Held fs₀ bs₀ node content k.fs
  read : ∀ {ds k k'}, J ds k → k'.vmm = k.vmm → k'.log = k.log →
    Held fs₀ bs₀ node content k'.fs → J ds k'
  stop : ∀ {ds k}, J ds k → ¬ ReadRoom fs₀ bs₀ ∨
    (ds = Loader.accesses content node.size ∧ ¬ Accepted content node.size) → F k

/-- The pages are recorded as long as there is room. -/
theorem mapPages_sat (h : Follows all J F S) {vaddrs : List ℕ}
    (hpre : ds ++ vaddrs.map .map <+: all) (hJ : J ds k) (hpages : pages = (mapped ds).take max) :
    (mapPages max vaddrs pages k).Sat (fun r k' => if r.1 then
      r.2 = (mapped ds ++ vaddrs).take max ∧ J (ds ++ vaddrs.map .map) k' else F k') S := by
  induction vaddrs generalizing ds pages k with
  | nil =>
      rw [mapPages]
      simpa [hpages] using hJ
  | cons v vaddrs ih =>
      rw [List.map_cons, List.append_cons] at hpre
      rw [mapPages]
      refine (h.map ((List.prefix_append _ _).trans hpre) hJ).bind fun p k' hp => ?_
      by_cases h0 : p = 0
      · rw [if_pos h0] at hp ⊢
        simpa using hp
      · rw [if_neg h0] at hp ⊢
        have hnext : (if pages.length < max then pages ++ [v] else pages) =
            (mapped (ds ++ [.map v])).take max := by
          rw [mapped_append, mapped_singleton, hpages, List.length_take]
          split_ifs with hlen
          · rw [List.take_of_length_le (by omega), List.take_of_length_le (by
              rw [List.length_append, List.length_singleton]
              omega)]
          · rw [List.take_append_of_le_length (by omega)]
        have hrest := ih hpre hp hnext
        simpa only [mapped_append, mapped_singleton, List.map_cons, List.append_assoc,
          List.singleton_append] using hrest

theorem storeBytes_sat (h : Follows all J F S) {dst n j : ℕ}
    (hpre : ds ++ (List.range' j n).map (fun x => .write ((dst + x) % 2 ^ 32) (buf x)) <+: all)
    (hJ : J ds k) :
    (storeBytes dst buf n j k).Sat (fun _ k' =>
      J (ds ++ (List.range' j n).map fun x => .write ((dst + x) % 2 ^ 32) (buf x)) k') S := by
  induction n generalizing ds j k with
  | zero =>
      rw [storeBytes]
      simpa using hJ
  | succ n ih =>
      rw [List.range'_succ, List.map_cons, List.append_cons] at hpre ⊢
      rw [storeBytes]
      exact (h.write ((List.prefix_append _ _).trans hpre) hJ).bind fun _ k' hk' => ih hpre hk'

/-- The copy loop reads the bytes that the file has, and ends early only without them. -/
theorem copySegment_sat (h : Loads fs₀ bs₀ node content all J F S) (hoffset : ph.pOffset < 2 ^ 32)
    (hfilesz : ph.pFilesz < 2 ^ 32) {fuel remaining readOff : ℕ}
    (hpre : ds ++ ph.stores content (ph.fileBytes node.size) <+: all)
    (hsum : readOff + remaining = ph.pFilesz) (hfuel : remaining ≤ fuel)
    (hread : readOff ≤ ph.fileBytes node.size) (hJ : J (ds ++ ph.stores content readOff) k) :
    (copySegment node ph fuel remaining readOff buf k).Sat (fun ok k' => if ok then
      ph.Whole node.size ∧ J (ds ++ ph.stores content ph.pFilesz) k' else
      F k' ∨ (¬ ph.Whole node.size ∧ J (ds ++ ph.stores content (ph.fileBytes node.size)) k'))
      S := by
  have hle : ph.fileBytes node.size ≤ ph.pFilesz := Nat.min_le_left _ _
  have hend : remaining = 0 → ph.Whole node.size ∧
      ds ++ ph.stores content readOff = ds ++ ph.stores content ph.pFilesz := by
    intro h0
    obtain rfl : readOff = ph.pFilesz := by omega
    exact ⟨Nat.le_antisymm hle hread, rfl⟩
  induction fuel generalizing remaining readOff buf k with
  | zero =>
      rw [copySegment, if_neg (by omega)]
      obtain ⟨hwhole, heq⟩ := hend (by omega)
      exact ⟨hwhole, heq ▸ hJ⟩
  | succ fuel ih =>
      rw [copySegment]
      by_cases hpos : 0 < remaining
      swap
      · rw [if_neg hpos]
        obtain ⟨hwhole, heq⟩ := hend (by omega)
        exact ⟨hwhole, heq ▸ hJ⟩
      rw [if_pos hpos]
      refine (readFile_sat (h.held hJ) _ (Nat.min_le_right _ _) _).bind
        fun r k₁ ⟨hvmm, hlog, hheld, hgot⟩ => ?_
      have hsize := hheld.size_lt
      have hJ₁ := h.read hJ hvmm hlog hheld
      have hfit : (ph.pOffset + readOff) % 2 ^ 32 = ph.pOffset + readOff := by
        refine Nat.mod_eq_of_lt ?_
        unfold Phdr.fileBytes at hread
        omega
      rw [hfit] at hgot
      dsimp only
      rcases hgot with ⟨hle0, hno⟩ | ⟨-, hgot, hbytes⟩
      · rw [if_pos hle0]
        exact Or.inl (h.stop hJ₁ (Or.inl hno))
      by_cases hmore : readOff < ph.fileBytes node.size
      · obtain ⟨n, hn⟩ : ∃ n, n = min (min remaining 512) (node.size - (ph.pOffset + readOff)) :=
          ⟨_, rfl⟩
        rw [← hn] at hgot hbytes
        have hnpos : 0 < n ∧ n ≤ remaining ∧ readOff + n ≤ ph.fileBytes node.size := by
          unfold Phdr.fileBytes at hmore ⊢
          omega
        have hstores : ds ++ ph.stores content (readOff + n) =
            ds ++ ph.stores content readOff ++ (List.range' 0 n).map fun x =>
              .write (((ph.pVaddr + readOff) % 2 ^ 32 + x) % 2 ^ 32) (r.2 x) := by
          rw [Phdr.stores_add, List.append_assoc, ← List.range_eq_range']
          refine congrArg _ (congrArg _ (List.map_congr_left fun x hx => ?_))
          have hx := List.mem_range.1 hx
          rw [hbytes x hx, Nat.mod_add_mod, Nat.add_assoc, Phdr.byteAt, if_pos (by omega),
            Nat.add_assoc]
        rw [if_neg (by omega), hgot, Int.toNat_natCast]
        have hpre' : ds ++ ph.stores content (readOff + n) <+: all := by
          obtain ⟨y, hy⟩ : ∃ y, ph.fileBytes node.size = readOff + n + y :=
            ⟨ph.fileBytes node.size - (readOff + n), by omega⟩
          refine List.IsPrefix.trans ?_ hpre
          rw [hy, Phdr.stores_add content ph (readOff + n), ← List.append_assoc]
          exact List.prefix_append _ _
        refine (storeBytes_sat h.toFollows (hstores ▸ hpre') hJ₁).bind fun _ k₂ hJ₂ => ?_
        rw [show (2 ^ 32 + remaining - n) % 2 ^ 32 = remaining - n by omega,
          show (readOff + n) % 2 ^ 32 = readOff + n by omega]
        refine ih (by omega) (by omega) hnpos.2.2 (hstores.symm ▸ hJ₂) fun h0 => ?_
        obtain heq : readOff + n = ph.pFilesz := by omega
        exact ⟨Nat.le_antisymm hle (heq ▸ hnpos.2.2), by rw [heq]⟩
      · have hall : readOff = ph.fileBytes node.size := by omega
        have hzero : min (min remaining 512) (node.size - (ph.pOffset + readOff)) = 0 := by
          unfold Phdr.fileBytes at hall
          omega
        rw [hzero] at hgot
        rw [if_pos (by omega)]
        refine Or.inr ⟨fun hwhole => ?_, hall ▸ hJ₁⟩
        unfold Phdr.Whole at hwhole
        omega

/-- The accesses for one segment, after those for the segments `xs`. -/
theorem loadSegment_sat (h : Loads fs₀ bs₀ node content all J F S) (hoffset : ph.pOffset < 2 ^ 32)
    (hfilesz : ph.pFilesz < 2 ^ 32) {xs ys : List Phdr}
    (hsegs : segments content node.size = xs ++ ph :: ys)
    (hJ : J (xs.flatMap (Phdr.accesses content node.size)) k)
    (hpages : pages = (xs.flatMap Phdr.pages).take max) :
    (loadSegment node max ph pages k).Sat (fun r k' => if r.1 then
      ph.Whole node.size ∧ r.2 = ((xs ++ [ph]).flatMap Phdr.pages).take max ∧
        J ((xs ++ [ph]).flatMap (Phdr.accesses content node.size)) k' else F k') S := by
  obtain ⟨ds, hds⟩ : ∃ ds, ds = xs.flatMap (Phdr.accesses content node.size) := ⟨_, rfl⟩
  have hmapped : mapped ds = xs.flatMap Phdr.pages := by rw [hds, mapped_accesses]
  have hnext : (xs ++ [ph]).flatMap (Phdr.accesses content node.size) =
      ds ++ ph.pages.map .map ++ ph.stores content (ph.extent node.size) := by
    rw [List.flatMap_append, List.flatMap_singleton, ← hds, Phdr.accesses, List.append_assoc]
  have hall : ds ++ ph.pages.map .map ++ ph.stores content (ph.extent node.size) <+: all := by
    refine List.IsPrefix.trans ?_ h.accesses
    rw [Loader.accesses, hsegs, List.append_cons, List.flatMap_append, hnext]
    exact List.prefix_append _ _
  have hstores : ∀ n ≤ ph.extent node.size,
      ds ++ ph.pages.map .map ++ ph.stores content n <+: all := by
    intro n hn
    obtain ⟨y, hy⟩ : ∃ y, ph.extent node.size = n + y := ⟨ph.extent node.size - n, by omega⟩
    rw [hy, Phdr.stores_add, ← List.append_assoc] at hall
    exact (List.prefix_append _ _).trans hall
  rw [← hds] at hJ
  rw [hnext, List.flatMap_append, List.flatMap_singleton, ← hmapped, loadSegment]
  refine (mapPages_sat h.toFollows ((List.prefix_append _ _).trans hall) hJ
    (hpages.trans (by rw [hmapped]))).bind fun ⟨ok, pages⟩ k₁ hr => ?_
  cases ok
  · simpa using hr
  simp only [if_true] at hr ⊢
  have hbytes : ph.fileBytes node.size ≤ ph.extent node.size := by
    unfold Phdr.extent
    split_ifs
    · exact (Nat.min_le_left _ _).trans (Nat.le_max_left _ _)
    · exact le_rfl
  refine (copySegment_sat h hoffset hfilesz (hstores _ hbytes) (Nat.zero_add _) le_rfl
    (Nat.zero_le _) (by simpa [Phdr.stores] using hr.2)).bind fun ok k₂ hcopy => ?_
  cases ok with
  | false =>
      simp only [Bool.false_eq_true, if_false] at hcopy ⊢
      rcases hcopy with hF | ⟨hwhole, hJ₂⟩
      · exact hF
      · refine h.stop hJ₂ (Or.inr ⟨?_, fun hacc => hwhole (hacc.whole (by simp [hsegs]))⟩)
        rw [Loader.accesses, hsegs, segments_of_not_whole hwhole hsegs, hnext, Phdr.extent,
          if_neg hwhole]
  | true =>
      simp only [if_true] at hcopy ⊢
      obtain ⟨hwhole, hJ₂⟩ := hcopy
      have hextent : ph.extent node.size = Nat.max ph.pFilesz ph.pMemsz := if_pos hwhole
      refine Outcome.Sat.bind (P := fun _ k' => J (ds ++ ph.pages.map .map ++
        ph.stores content (ph.extent node.size)) k') ?_ fun _ k' hk' => ⟨hwhole, hr.1, hk'⟩
      rw [clearBss]
      by_cases hbss : ph.pFilesz < ph.pMemsz
      · obtain ⟨n, hn⟩ : ∃ n, ph.pMemsz = ph.pFilesz + n := ⟨ph.pMemsz - ph.pFilesz, by omega⟩
        have hmem : ph.extent node.size = ph.pFilesz + n := by
          rw [hextent, hn]
          exact Nat.max_eq_right (Nat.le_add_right _ _)
        have hclear : ph.stores content (ph.pFilesz + n) = ph.stores content ph.pFilesz ++
            (List.range' 0 n).map fun x =>
              .write (((ph.pVaddr + ph.pFilesz) % 2 ^ 32 + x) % 2 ^ 32) 0 := by
          rw [Phdr.stores_add, ← List.range_eq_range']
          refine congrArg _ (List.map_congr_left fun x _ => ?_)
          rw [Nat.mod_add_mod, Nat.add_assoc, Phdr.byteAt, if_neg (by omega)]
        rw [if_pos hbss, hmem, hclear, ← List.append_assoc, hn, Nat.add_sub_cancel_left]
        refine storeBytes_sat h.toFollows ?_ hJ₂
        rw [List.append_assoc, ← hclear, ← hmem]
        exact hall
      · rw [if_neg hbss, hextent, show Nat.max ph.pFilesz ph.pMemsz = ph.pFilesz from
          Nat.max_eq_left (by omega)]
        exact hJ₂

/-- The loop from program header `i` on, after the segments `xs`. -/
theorem loadPhdrs_sat (h : Loads fs₀ bs₀ node content all J F S) {ehdr : Bytes}
    (hehdr : ∀ x < ehdrSize, ehdr x = content x) {n i : ℕ} {xs : List Phdr}
    (hn : i + n = ePhnum content)
    (hsegs : segments content node.size = xs ++ segmentsFrom content node.size n i)
    (hJ : J (xs.flatMap (Phdr.accesses content node.size)) k)
    (hpages : pages = (xs.flatMap Phdr.pages).take max) :
    (loadPhdrs node max ehdr n i pages k).Sat (fun r k' => if r.1 then
      r.2 = ((segments content node.size).flatMap Phdr.pages).take max ∧
        J (accesses content node.size) k' ∧ ∀ j, i ≤ j → j < i + n →
          PhdrInFile content node.size j ∧
            ((phdrAt content j).Loadable → (phdrAt content j).Whole node.size)
      else F k') S := by
  induction n generalizing i xs pages k with
  | zero =>
      rw [segmentsFrom, List.append_nil] at hsegs
      rw [loadPhdrs, accesses, hsegs]
      refine ⟨hpages, hJ, fun j hj hj' => by omega⟩
  | succ n ih =>
      rw [loadPhdrs, phdrOffset_congr hehdr]
      refine (readFile_sat (h.held hJ) _ (by decide) _).bind
        fun r k₁ hr => ?_
      obtain ⟨hvmm, hlog, hheld, hgot⟩ := hr
      have hJ₁ := h.read hJ hvmm hlog hheld
      have hi : i < ePhnum content := by omega
      dsimp only
      rcases hgot with ⟨hle, hno⟩ | ⟨-, hgot, hbytes⟩
      · rw [if_pos (by
          unfold phdrSize
          omega)]
        exact h.stop hJ₁ (Or.inl hno)
      by_cases hin : PhdrInFile content node.size i
      swap
      · have hne : r.1 ≠ phdrSize := by
          unfold PhdrInFile phdrSize at hin
          unfold phdrSize at hgot ⊢
          omega
        rw [if_pos hne]
        refine h.stop hJ₁ (Or.inr ⟨?_, fun hacc => hin (hacc.phdrs i hi).1⟩)
        rw [accesses, hsegs, segmentsFrom, if_neg hin, List.append_nil]
      have hmin : min phdrSize (node.size - phdrOffset content i) = phdrSize := by
        unfold PhdrInFile at hin
        omega
      rw [hmin] at hgot hbytes
      have hph : Phdr.ofBytes r.2 = phdrAt content i := Phdr.ofBytes_congr hbytes
      rw [if_neg (not_not.2 hgot), hph]
      rw [segmentsFrom, if_pos hin] at hsegs
      by_cases hload : (phdrAt content i).Loadable
      · rw [if_pos hload] at hsegs ⊢
        refine (loadSegment_sat h (load32_lt _ _) (load32_lt _ _) hsegs hJ₁ hpages).bind
          fun r k₂ hr => ?_
        obtain ⟨ok, pages⟩ := r
        cases ok
        · simpa using hr
        simp only [if_true] at hr ⊢
        obtain ⟨hwhole, hpages', hJ₂⟩ := hr
        rw [if_pos hwhole] at hsegs
        refine (ih (by omega) (by rw [hsegs, List.append_assoc, List.singleton_append]) hJ₂
          hpages').mono (fun r' k' hr' => ?_) fun _ h => h
        split_ifs at hr' ⊢ with hok
        · refine ⟨hr'.1, hr'.2.1, fun j hj hj' => ?_⟩
          rcases Nat.eq_or_lt_of_le hj with rfl | hlt
          · exact ⟨hin, fun _ => hwhole⟩
          · exact hr'.2.2 j hlt (by omega)
        · exact hr'
      · rw [if_neg hload] at hsegs ⊢
        refine (ih (by omega) hsegs hJ₁ hpages).mono (fun r' k' hr' => ?_) fun _ h => h
        split_ifs at hr' ⊢ with hok
        · refine ⟨hr'.1, hr'.2.1, fun j hj hj' => ?_⟩
          rcases Nat.eq_or_lt_of_le hj with rfl | hlt
          · exact ⟨hin, fun h => absurd h hload⟩
          · exact hr'.2.2 j hlt (by omega)
        · exact hr'

/-- A run of `elf_load` from its start. -/
theorem elfLoad_sat (max : ℕ) (h : Loads fs₀ bs₀ node content all J F S) (hJ : J [] k) :
    (elfLoad node max [] k).Sat (fun r k' => if r.1 = 0 then F k' else
      r.1 = eEntry content ∧ Accepted content node.size ∧ ReadRoom fs₀ bs₀ ∧
        r.2 = ((segments content node.size).flatMap Phdr.pages).take max ∧
        J (accesses content node.size) k') S := by
  rw [elfLoad]
  refine (readFile_sat (h.held hJ) _ (by decide) _).bind fun r k₁ hr => ?_
  obtain ⟨hvmm, hlog, hheld, hgot⟩ := hr
  have hJ₁ := h.read hJ hvmm hlog hheld
  dsimp only
  have hnone : ¬ HeaderOk content node.size → F k₁ := by
    intro hno
    refine h.stop hJ₁ (Or.inr ⟨?_, fun hacc => hno hacc.header⟩)
    rw [accesses, segments, if_neg hno, List.flatMap_nil]
  rcases hgot with ⟨hle, hno⟩ | ⟨hroom, hgot, hbytes⟩
  · rw [if_pos (by
      unfold ehdrSize
      omega)]
    exact h.stop hJ₁ (Or.inl hno)
  by_cases hsize : ehdrSize ≤ node.size
  swap
  · rw [if_pos (by omega)]
    exact hnone fun hok => hsize hok.1
  rw [show min ehdrSize (node.size - 0) = ehdrSize by omega] at hgot hbytes
  have hehdr : ∀ x < ehdrSize, r.2 x = content x := fun x hx => by
    rw [hbytes x hx, Nat.zero_add]
  rw [if_neg (not_not.2 hgot), ehdrOk_congr hehdr, ePhnum_congr hehdr, eEntry_congr hehdr]
  by_cases hok : ehdrOk content = true
  swap
  · rw [if_neg hok]
    exact hnone fun h => hok h.2
  rw [if_pos hok]
  have hsegs : segments content node.size = [] ++ segmentsFrom content node.size
      (ePhnum content) 0 := by
    rw [segments, if_pos ⟨hsize, hok⟩, List.nil_append]
  refine (loadPhdrs_sat h hehdr (by omega) hsegs hJ₁ List.take_nil.symm).bind
    fun r k' hr => ?_
  obtain ⟨ok, pages⟩ := r
  cases ok
  · simpa using hr
  simp only [if_true] at hr ⊢
  obtain ⟨hpages, hJ', hphdrs⟩ := hr
  by_cases hentry : eEntry content = 0
  · simp only [Outcome.sat_done, hentry, if_true]
    exact h.stop hJ' (Or.inr ⟨rfl, fun hacc => hacc.entry hentry⟩)
  · simp only [Outcome.sat_done, if_neg hentry]
    exact ⟨trivial, ⟨⟨hsize, hok⟩, fun j hj => hphdrs j (Nat.zero_le _) (by omega), hentry⟩,
      hroom, hpages, hJ'⟩

end Rules

end Loader

end Yotos
