import Yotos.Library.Buffer
import Yotos.Library.Store
import Mathlib.Data.List.DropRight
import Yotos.Fat16.FileRun
import Yotos.Fat16.Overwrite
import Yotos.Fat16.Rollback

/-!
# The files of a volume

The files of a volume by the address of their directory entry, with their bytes. A write
replaces a piece of its own file, a creation adds an empty file, and a read returns a
piece of the file.
-/

namespace Yotos

namespace Fat16

open Bytes Kheap Library

/-- The file with entry `f` and first cluster `i` has the bytes `content`. -/
structure FileIs (b : Bpb) (d : Disk) (i f : ℕ) (content : List UInt8) : Prop where
  live : LiveEntry b d f
  file : isDirectory (entryAt d f) = false
  bytes : ∃ l, FileChain b (dataTop b) d i l ∧
    fileSize (entryAt d f) ≤ l.length * b.clusterBytes ∧
    content = bytesAt (byteAt b d l) 0 (fileSize (entryAt d f))

/-- The volume has the files of `store`, where `first` gives the first clusters. -/
structure Shows (b : Bpb) (d : Disk) (first : ℕ → ℕ) (store : Store ℕ UInt8) : Prop where
  fileIs : ∀ f content, store f = some content → FileIs b d (first f) f content
  total : ∀ f, LiveEntry b d f → isDirectory (entryAt d f) = false → ∃ content,
    store f = some content
  small : ∀ f, LiveEntry b d f → isDirectory (entryAt d f) = false →
    firstCluster (entryAt d f) < 2 → fileSize (entryAt d f) = 0

variable {b : Bpb} {d d' : Disk} {first : ℕ → ℕ} {f g i : ℕ} {content content' : List UInt8}
  {store : Store ℕ UInt8}

theorem FileIs.length_eq (h : FileIs b d i f content) :
    content.length = fileSize (entryAt d f) := by
  obtain ⟨l, -, -, rfl⟩ := h.bytes
  exact length_bytesAt _ _ _

theorem FileIs.owner (h : FileIs b d i f content) : Owner b d f := ⟨h.live, isDot_of_file h.file⟩

theorem bytesAt_congr {m m' : Bytes} {n : ℕ} (h : ∀ x < n, m' x = m x) :
    bytesAt m' 0 n = bytesAt m 0 n := by
  refine List.map_congr_left fun x hx => ?_
  rw [Nat.zero_add]
  exact h x (List.mem_range.1 hx)

theorem FileIs.unique (hb : Layout b) (h : FileIs b d i f content) (h' : FileIs b d i f content') :
    content = content' := by
  obtain ⟨l, hl, -, rfl⟩ := h.bytes
  obtain ⟨l', hl', -, rfl⟩ := h'.bytes
  rw [hl.unique hb.dataGeometry hl']

/-- A file that is left alone. -/
theorem FileIs.keep (h : FileIs b d i f content) (hlive : LiveEntry b d' f)
    (hentry : ∀ x < 32, entryAt d' f x = entryAt d f x)
    (hchain : ∀ l, FileChain b (dataTop b) d i l → FileChain b (dataTop b) d' i l ∧
      ∀ x < l.length * b.clusterBytes, byteAt b d' l x = byteAt b d l x) :
    FileIs b d' i f content := by
  obtain ⟨l, hl, hlong, rfl⟩ := h.bytes
  have hsize := fileSize_congr hentry
  refine ⟨hlive, ?_, l, (hchain l hl).1, hsize ▸ hlong, ?_⟩
  · rw [isDirectory_congr fun x hx => hentry x (by omega)]
    exact h.file
  · rw [hsize]
    exact (bytesAt_congr fun x hx => (hchain l hl).2 x (by omega)).symm

/-! ## A write -/

theorem bytesAt_splice {m m' buf : Bytes} {n k offset : ℕ} (hoffset : offset ≤ n)
    (h : ∀ x < max n (offset + k), m' x =
      if offset ≤ x ∧ x < offset + k then buf (x - offset) else m x) :
    bytesAt m' 0 (max n (offset + k)) = splice (bytesAt m 0 n) offset (bytesAt buf 0 k) := by
  have hlen : (splice (bytesAt m 0 n) offset (bytesAt buf 0 k)).length = max n (offset + k) := by
    rw [length_splice (by rwa [length_bytesAt]), length_bytesAt, length_bytesAt]
  refine List.ext_getElem? fun x => ?_
  rcases Nat.lt_or_ge x (max n (offset + k)) with hlt | hge
  · rw [getElem?_bytesAt hlt, Nat.zero_add, h x hlt, getElem?_splice (by rwa [length_bytesAt]),
      length_bytesAt]
    split_ifs with hin
    · rw [getElem?_bytesAt (by omega), Nat.zero_add]
    · rw [getElem?_bytesAt (by omega), Nat.zero_add]
  · rw [List.getElem?_eq_none (by rw [length_bytesAt]; exact hge),
      List.getElem?_eq_none (by rw [hlen]; exact hge)]

/-- However a call ends at a place in the file or at its end, its file has the bytes that
the call reports, and is as long as it has to be. -/
theorem WriteOutcome.stored (hb : Layout b) (hs : Sound b (dataTop b) d first)
    {node node' : VfsNode} {offset size : ℕ} {buf : Bytes} {ret : ℤ} {l : List ℕ}
    (hn : OnSlot b d node f) (hinode : node.inode = first f)
    (hl : FileChain b (dataTop b) d (first f) l)
    (hsize : node.size = fileSize (entryAt d f)) (hoffset : offset ≤ node.size)
    (hlong : node.size ≤ l.length * b.clusterBytes) (hoff : offset + size < 2 ^ 31)
    (h : WriteOutcome b (dataTop b) d l node offset size buf ret node' d') :
    ∃ l', Regrown b (dataTop b) d l f node'.inode d' l' ∧ node'.dirLba = node.dirLba ∧
      node'.dirIndex = node.dirIndex ∧ node'.size = fileSize (entryAt d' f) ∧
      node'.size ≤ l'.length * b.clusterBytes ∧
      (firstCluster (entryAt d' f) < 2 → fileSize (entryAt d' f) = fileSize (entryAt d f) ∧
        firstCluster (entryAt d' f) = firstCluster (entryAt d f)) ∧
      bytesAt (byteAt b d' l') 0 node'.size =
        splice (bytesAt (byteAt b d l) 0 node.size) offset (bytesAt buf 0 ret.toNat) := by
  have hgeo := hb.dataGeometry
  cases h with
  | nothing =>
      refine ⟨l, regrown_refl hs hn hinode hl, rfl, rfl, hsize, hlong, fun _ => ⟨rfl, rfl⟩, ?_⟩
      exact (splice_nil _ _).symm
  | full =>
      refine ⟨l, regrown_refl hs hn hinode hl, rfl, rfl, hsize, hlong, fun _ => ⟨rfl, rfl⟩, ?_⟩
      exact (splice_nil _ _).symm
  | @noHeap i _ l' hgrown hmem hsame =>
      have hprivate : Private b (dataTop b) d first (· ∈ l') := fun c hc =>
        ⟨hgrown.chain.inside_of_mem hc, (hgrown.fresh c hc).symm.imp_right
          fun hcl => ⟨f, l, hn.owner, hn.file, hl, hcl⟩⟩
      have hentry : ∀ x < 32, entryAt d' f x = entryAt d f x := fun x hx =>
        hgrown.frame.dirByte_eq hgeo hs hprivate (hn.live.dirByte hx) id
      have hlen := length_mul_le (b := b) hgrown.isPrefix
      refine ⟨l', regrown_grown hgeo hs hn hinode hl hgrown hmem fun hne => (hsame hne).1, rfl,
        rfl, hsize.trans (fileSize_congr hentry).symm, hlong.trans hlen,
        fun _ => ⟨fileSize_congr hentry, firstCluster_congr hentry⟩, ?_⟩
      have hret : bytesAt buf 0 (-1 : ℤ).toNat = [] := rfl
      rw [hret, splice_nil]
      refine bytesAt_congr fun x hx => ?_
      rcases eq_or_ne l [] with rfl | hne
      · exact absurd (hx.trans_le hlong) (by rw [List.length_nil, Nat.zero_mul]; exact Nat.not_lt_zero x)
      · obtain ⟨-, rfl, rfl⟩ := hsame hne
        rfl
  | @written i n d₁ l' _ hsame hwrote hmem hle =>
      have huse := hwrote.grown.chain.inside_of_mem hmem
      have hlen := length_mul_le (b := b) hwrote.grown.isPrefix
      have hfits := hwrote.fits
      have hslot := hn.size_lt
      have hlong' : max node.size (offset + n) ≤ l'.length * b.clusterBytes := by
        rcases Nat.eq_zero_or_pos n with hzero | hpos
        · omega
        · have := hfits hpos
          omega
      have hret : (toInt n).toNat = n := by
        rw [toInt, if_pos (by omega)]
        rfl
      refine ⟨l', regrown_updateEntry hgeo hs hn hwrote.grown hmem rfl rfl, rfl, rfl,
        (fileSize_updateEntry hn d₁ { node with inode := i, size := max node.size (offset + n) }
          rfl rfl (by dsimp only; omega)).symm, hlong', fun hlt => ?_, ?_⟩
      · rw [firstCluster_updateEntry hn d₁
          { node with inode := i, size := max node.size (offset + n) } rfl rfl
          (huse.lt hgeo)] at hlt
        exact absurd huse.1 (Nat.not_le_of_lt hlt)
      · rw [hret]
        refine bytesAt_splice hoffset fun x hx => ?_
        rw [byteAt_updateEntry hgeo hs hn hl hwrote.grown
          { node with inode := i, size := max node.size (offset + n) } rfl rfl
          (hx.trans_le hlong')]
        split_ifs with hin
        · exact hwrote.written x (by omega) hin.2
        · exact hwrote.kept x (by omega) (by omega)

theorem Shows.write (hb : Layout b) (hs : Sound b (dataTop b) d first) (h : Shows b d first store)
    {node node' : VfsNode} {offset size : ℕ} {buf : Bytes} {ret : ℤ} {l : List ℕ}
    (hn : OnSlot b d node f) (hinode : node.inode = first f)
    (hl : FileChain b (dataTop b) d (first f) l)
    (hsize : node.size = fileSize (entryAt d f)) (hoffset : offset ≤ node.size)
    (hoff : offset + size < 2 ^ 31)
    (houtcome : WriteOutcome b (dataTop b) d l node offset size buf ret node' d') :
    node'.size = fileSize (entryAt d' f) ∧ Shows b d' (Function.update first f node'.inode)
      (store.write f offset (bytesAt buf 0 ret.toNat)) := by
  have hgeo := hb.dataGeometry
  obtain ⟨content, hcontent⟩ := h.total f hn.live hn.file
  obtain ⟨l₀, hl₀, hlong, rfl⟩ := (h.fileIs f content hcontent).bytes
  obtain rfl := hl₀.unique hgeo hl
  rw [← hsize] at hlong hcontent
  obtain ⟨l', hreg, -, -, hsize', hlong', hsmall, hbytes⟩ :=
    houtcome.stored hb hs hn hinode hl hsize hoffset hlong hoff
  have htree := hreg.sameTree hgeo hs hn.owner hn.file hl
  have hlive : ∀ g, LiveEntry b d' g ↔ LiveEntry b d g := fun g => htree.liveEntry_iff hgeo hs
  have hkind : ∀ g, LiveEntry b d g → isDirectory (entryAt d' g) = isDirectory (entryAt d g) :=
    fun g hg => isDirectory_congr (htree.liveEntry_head hg)
  refine ⟨hsize', fun g content' hg => ?_, fun g hg hfile => ?_, fun g hg hfile hfirst => ?_⟩
  · by_cases hne : g = f
    · subst hne
      rw [Store.write_self hcontent] at hg
      rw [Function.update_self]
      refine ⟨(hlive g).2 hn.live, (hkind g hn.live).trans hn.file, l', hreg.chain,
        hsize' ▸ hlong', ?_⟩
      rw [← hsize', hbytes]
      exact (Option.some.inj hg).symm
    · rw [Store.write_of_ne hne] at hg
      rw [Function.update_of_ne hne]
      have hold := h.fileIs g content' hg
      exact hold.keep ((hlive g).2 hold.live) (htree.liveEntry_other hold.live hne) fun m hm =>
        ⟨hreg.chain_other hgeo hs hn.owner hl hold.owner hne hm,
          fun x hx => hreg.byteAt_other hgeo hs hn.owner hl hold.owner hold.file hne hm hx⟩
  · have hlive' := (hlive g).1 hg
    rw [hkind g hlive'] at hfile
    by_cases hne : g = f
    · subst hne
      exact ⟨_, Store.write_self hcontent _ _⟩
    · rw [Store.write_of_ne hne]
      exact h.total g hlive' hfile
  · have hlive' := (hlive g).1 hg
    rw [hkind g hlive'] at hfile
    by_cases hne : g = f
    · subst hne
      obtain ⟨heq, hfirst'⟩ := hsmall hfirst
      rw [heq]
      exact h.small g hlive' hfile (hfirst' ▸ hfirst)
    · have hentry := htree.liveEntry_other hlive' hne
      rw [firstCluster_congr hentry] at hfirst
      rw [fileSize_congr hentry]
      exact h.small g hlive' hfile hfirst

/-! ## A creation -/

theorem Created.byteAt_other {top k : ℕ} {e : Bytes} {dir : ℕ} {l m : List ℕ} (hb : Geometry b top)
    (hs : Sound b top d first) (hdir : IsDir b d dir) (h : Created b top d dir k e l d')
    (hg : Owner b d g) (hfile : isDirectory (entryAt d g) = false)
    (hm : FileChain b top d (first g) m) {x : ℕ} (hx : x < m.length * b.clusterBytes) :
    byteAt b d' m x = byteAt b d m x := by
  refine byteAt_congr hb (fun c hc a ha => ?_) hx
  have huse := hm.inUse hc
  have hprivate : Private b top d first (· = c) := by
    rintro _ rfl
    exact ⟨huse, Or.inr ⟨g, m, hg, hfile, hm, hc⟩⟩
  have hdata := dataAddr_le_of_inCluster huse.1 (huse.lt hb) ha
  refine h.frame.bytes a ((rootAddr_le_dataAddr b).trans hdata) (fun c' hc' ha' => ?_)
    (not_slotBytes_of_inCluster hb hs hdir h.slot.has hprivate rfl ha)
  obtain rfl := inCluster_unique huse.1 (huse.lt hb) (h.fresh c' hc').1.1
    ((h.fresh c' hc').1.lt hb) ha ha'
  exact hm.fatAt_ne_zero hc (h.fresh c hc').2

theorem Unharmed.byteAt_eq {top : ℕ} {m : List ℕ} (hb : Geometry b top)
    (h : Unharmed b top d d') (hm : FileChain b top d i m) {x : ℕ}
    (hx : x < m.length * b.clusterBytes) : byteAt b d' m x = byteAt b d m x := by
  refine byteAt_congr hb (fun c hc a ha => ?_) hx
  have huse := hm.inUse hc
  have hdata := dataAddr_le_of_inCluster huse.1 (huse.lt hb) ha
  refine h.frame.bytes a ((rootAddr_le_dataAddr b).trans hdata) (fun c' hc' ha' => ?_) id
  obtain rfl := inCluster_unique huse.1 (huse.lt hb) hc'.1.1 (hc'.1.lt hb) ha ha'
  exact hm.fatAt_ne_zero hc hc'.2

/-- A call that makes an entry. The files are the old ones and the new entry, if it is a
file's and can be seen. -/
theorem Shows.created (hb : Layout b) (hs : Sound b (dataTop b) d first) (hzero : ZeroTail b d)
    (h : Shows b d first store) {dir k c : ℕ} {name83 ext83 : Bytes} {flags : UInt32}
    {l : List ℕ} {store' : Store ℕ UInt8} (hdir : IsDir b d dir)
    (hcreated : Created b (dataTop b) d dir k (createdEntry name83 ext83 c flags) l d')
    (hold : ∀ g, g ≠ slotAddr b d dir k → store' g = store g)
    (hnew : ∀ content, store' (slotAddr b d dir k) = some content → content = [] ∧
      LiveEntry b d' (slotAddr b d dir k) ∧
      isDirectory (entryAt d' (slotAddr b d dir k)) = false)
    (hsome : LiveEntry b d' (slotAddr b d dir k) →
      isDirectory (entryAt d' (slotAddr b d dir k)) = false →
      ∃ content, store' (slotAddr b d dir k) = some content) :
    Shows b d' (Function.update first (slotAddr b d dir k)
      (firstCluster (createdEntry name83 ext83 c flags))) store' := by
  have hgeo := hb.dataGeometry
  have hother : ∀ g, LiveEntry b d' g → isDirectory (entryAt d' g) = false →
      g ≠ slotAddr b d dir k → LiveEntry b d g ∧ ∀ x < 32, entryAt d' g x = entryAt d g x := by
    intro g hg hfile hne
    have howner := (hcreated.owner_cases hgeo hs hzero ⟨hg, isDot_of_file hfile⟩).resolve_left hne
    exact ⟨howner.1, (hcreated.owner_of_owner hgeo hs howner).2.2⟩
  refine ⟨fun g content hg => ?_, fun g hg hfile => ?_, fun g hg hfile hfirst => ?_⟩
  · by_cases hne : g = slotAddr b d dir k
    · subst hne
      obtain ⟨rfl, hlive, hfile⟩ := hnew content hg
      refine ⟨hlive, hfile, l, ?_, ?_, ?_⟩
      · rw [Function.update_self]
        exact hcreated.chain
      · rw [hcreated.fileSize_eq]
        exact Nat.zero_le _
      · rw [hcreated.fileSize_eq]
        rfl
    · rw [hold g hne] at hg
      rw [Function.update_of_ne hne]
      have hbefore := h.fileIs g content hg
      obtain ⟨howner, -, hentry⟩ := hcreated.owner_of_owner hgeo hs hbefore.owner
      exact hbefore.keep howner.1 hentry fun m hm => ⟨hcreated.chain_other hgeo hm,
        fun x hx => hcreated.byteAt_other hgeo hs hdir hbefore.owner hbefore.file hm hx⟩
  · by_cases hne : g = slotAddr b d dir k
    · subst hne
      exact hsome hg hfile
    · obtain ⟨hlive, hentry⟩ := hother g hg hfile hne
      rw [isDirectory_congr fun x hx => hentry x (by omega)] at hfile
      rw [hold g hne]
      exact h.total g hlive hfile
  · by_cases hne : g = slotAddr b d dir k
    · subst hne
      exact hcreated.fileSize_eq
    · obtain ⟨hlive, hentry⟩ := hother g hg hfile hne
      rw [isDirectory_congr fun x hx => hentry x (by omega)] at hfile
      rw [firstCluster_congr hentry] at hfirst
      rw [fileSize_congr hentry]
      exact h.small g hlive hfile hfirst

/-- A call that creates nothing. -/
theorem Shows.unharmed (hb : Layout b) (hs : Sound b (dataTop b) d first)
    (h : Shows b d first store) (hsafe : Unharmed b (dataTop b) d d') :
    Shows b d' first store := by
  have hgeo := hb.dataGeometry
  have htree := hsafe.sameTree hgeo hs
  have hlive : ∀ g, LiveEntry b d' g ↔ LiveEntry b d g := fun g => htree.liveEntry_iff hgeo hs
  have hentry : ∀ g, LiveEntry b d g → ∀ x < 32, entryAt d' g x = entryAt d g x := by
    rintro g hg
    refine htree.liveEntry_other hg ?_
    rintro rfl
    exact absurd hg.mod (by simp)
  refine ⟨fun g content hg => ?_, fun g hg hfile => ?_, fun g hg hfile hfirst => ?_⟩
  · have hold := h.fileIs g content hg
    exact hold.keep ((hlive g).2 hold.live) (hentry g hold.live) fun m hm =>
      ⟨(hsafe.fileChain_iff hgeo).2 hm, fun x hx => hsafe.byteAt_eq hgeo hm hx⟩
  · have hlive' := (hlive g).1 hg
    rw [isDirectory_congr fun x hx => hentry g hlive' x (by omega)] at hfile
    exact h.total g hlive' hfile
  · have hlive' := (hlive g).1 hg
    rw [isDirectory_congr fun x hx => hentry g hlive' x (by omega)] at hfile
    rw [firstCluster_congr (hentry g hlive')] at hfirst
    rw [fileSize_congr (hentry g hlive')]
    exact h.small g hlive' hfile hfirst

theorem eq_of_toUpper {c : UInt8} (h : toUpper c = 0xE5) : c = 0xE5 := by
  have hnat := toUpper_toNat c
  rw [h] at hnat
  have hval : (0xE5 : UInt8).toNat = 229 := rfl
  refine UInt8.toNat_inj.1 ?_
  split_ifs at hnat <;> omega

theorem first_format83 {e : Bytes} {c : UInt8} {cs : List UInt8} (h : format83 e = c :: cs) :
    c = e 0 ∨ c = 0x2E := by
  have hprefix : c :: cs <+: if e 8 ≠ 0x20
      then trimEnd ((List.range 8).map e) ++ 0x2E :: trimEnd ((List.range 3).map fun k => e (8 + k))
      else trimEnd ((List.range 8).map e) := by
    rw [← h, format83, cString]
    exact List.takeWhile_prefix _
  have htrim : trimEnd ((List.range 8).map e) <+: (List.range 8).map e :=
    List.rdropWhile_prefix _ _
  cases hname : trimEnd ((List.range 8).map e) with
  | nil =>
      rw [hname, List.nil_append] at hprefix
      split_ifs at hprefix
      · exact Or.inr (List.cons_prefix_cons.1 hprefix).1
      · exact absurd (List.prefix_nil.1 hprefix) (List.cons_ne_nil c cs)
  | cons c' cs' =>
      rw [hname] at hprefix htrim
      have hfirst : c' = e 0 := (List.cons_prefix_cons.1 htrim).1
      left
      rw [← hfirst]
      split_ifs at hprefix
      · exact (List.cons_prefix_cons.1 hprefix).1
      · exact (List.cons_prefix_cons.1 hprefix).1

/-- No entry that can be seen has a name that looks deleted in its entry. -/
theorem nameMatch_eq_false_of_deleted {e name83 ext83 : Bytes} {name : List UInt8}
    (hname : 0 ∉ name) (hformat : formatName83 name = some (name83, ext83))
    (hdel : name83 0 = 0xE5) (he : Visible e) : nameMatch e name = false := by
  obtain ⟨c, cs, rfl, -, hfirst⟩ := formatName83_first hformat
  rw [Bool.eq_false_iff]
  intro hmatch
  have heq := (nameMatch_iff hname).1 hmatch
  rw [List.map_cons, ← hfirst, hdel] at heq
  cases hshown : format83 e with
  | nil =>
      rw [hshown] at heq
      cases heq
  | cons x xs =>
      rw [hshown, List.map_cons] at heq
      have hx := eq_of_toUpper (List.cons.inj heq).1
      rcases first_format83 hshown with rfl | rfl
      · exact he.not_isFree (Or.inr hx)
      · cases hx

/-! ## A lookup -/

/-- Taking the first cluster of an entry from the disk again. -/
theorem Shows.refresh (hs : Sound b (dataTop b) d first) (h : Shows b d first store)
    (hlive : LiveEntry b d f) (hfile : isDirectory (entryAt d f) = false) :
    Shows b d (Function.update first f (firstCluster (entryAt d f))) store := by
  refine ⟨fun g content hg => ?_, h.total, h.small⟩
  by_cases hne : g = f
  · subst hne
    rw [Function.update_self]
    have hold := h.fileIs g content hg
    rcases Nat.lt_or_ge (firstCluster (entryAt d g)) 2 with hlt | htwo
    · have hzero := h.small g hlive hfile hlt
      have hnil : content = [] := by
        rw [← List.length_eq_zero_iff, hold.length_eq]
        exact hzero
      refine ⟨hlive, hfile, [], (fileChain_of_lt hlt).2 rfl, ?_, ?_⟩
      · rw [hzero]
        exact Nat.zero_le _
      · rw [hzero, hnil]
        rfl
    · rw [← hs.onDisk g hold.owner htwo]
      exact hold
  · rw [Function.update_of_ne hne]
    exact h.fileIs g content hg

/-! ## A read -/

theorem fat16VfsRead_disk {fs fs' : Fs} {node : VfsNode} {offset size : ℕ} {buf out : Bytes}
    {ret : ℤ} (hrun : fat16VfsRead node offset size buf fs = some (ret, out, fs')) :
    fs'.disk = fs.disk ∧ fs'.bpb = fs.bpb ∧ fs'.mounted = fs.mounted := by
  rw [fat16VfsRead] at hrun
  split_ifs at hrun with hmounted hend
  · obtain ⟨-, -, rfl⟩ := Prod.mk.inj (Option.some.inj hrun) |>.imp_right Prod.mk.inj
    exact ⟨rfl, rfl, rfl⟩
  · dsimp only at hrun
    cases hskip : skipClusters fs.bpb fs.disk (offset / fs.bpb.clusterBytes)
        (node.inode % 65536) with
    | none =>
        rw [hskip] at hrun
        obtain ⟨-, -, rfl⟩ := Prod.mk.inj (Option.some.inj hrun) |>.imp_right Prod.mk.inj
        exact ⟨rfl, rfl, rfl⟩
    | some cluster =>
        rw [hskip] at hrun
        obtain ⟨⟨p, heap⟩, -, hrun⟩ := Option.bind_eq_some_iff.1 hrun
        dsimp only at hrun
        split_ifs at hrun with hp
        · obtain ⟨-, -, rfl⟩ := Prod.mk.inj (Option.some.inj hrun) |>.imp_right Prod.mk.inj
          exact ⟨rfl, rfl, rfl⟩
        · obtain ⟨⟨n, out'⟩, -, hrun⟩ := Option.map_eq_some_iff.1 hrun
          obtain ⟨-, -, rfl⟩ := Prod.mk.inj hrun |>.imp_right Prod.mk.inj
          exact ⟨rfl, rfl, rfl⟩
  · obtain ⟨-, -, rfl⟩ := Prod.mk.inj (Option.some.inj hrun) |>.imp_right Prod.mk.inj
    exact ⟨rfl, rfl, rfl⟩

/-- What a read returned is part of the file, unless there was no heap. -/
theorem FileIs.read {fs fs' : Fs} {node : VfsNode} {offset size : ℕ} {buf out : Bytes} {ret : ℤ}
    (hb : Layout fs.bpb) (hmounted : fs.mounted = true)
    (h : FileIs fs.bpb fs.disk node.inode f content) (hinode : node.inode < 65536)
    (hsize : node.size = fileSize (entryAt fs.disk f))
    (hfit : size + fs.bpb.clusterBytes ≤ 2 ^ 31) (hret : 0 ≤ ret)
    (hrun : fat16VfsRead node offset size buf fs = some (ret, out, fs')) :
    bytesAt out 0 ret.toNat = (content.drop offset).take size := by
  obtain ⟨l, hl, hlong, rfl⟩ := h.bytes
  rw [← hsize] at hlong ⊢
  have hreads := readsAs_byteAt hb.dataGeometry hmounted hl hinode hlong
  -- a read that is not at the end needs a buffer, and got it
  have hbuffer : offset < node.size → ∃ p heap,
      kmalloc fs.heapStart fs.bpb.clusterBytes fs.heap = some (p, heap) ∧ p ≠ 0 := by
    intro hlt
    have hidx : offset / fs.bpb.clusterBytes < l.length := index_lt (by omega)
    have hget := List.getElem?_eq_getElem hidx
    rcases hl.cases with ⟨-, rfl⟩ | ⟨-, -, hchain⟩
    · exact absurd hidx (Nat.not_lt_zero _)
    rw [fat16VfsRead, if_pos hmounted, if_neg (Nat.not_le_of_lt hlt)] at hrun
    dsimp only at hrun
    rw [Nat.mod_eq_of_lt hinode, skipClusters_eq_some hb.dataGeometry hchain hget] at hrun
    obtain ⟨⟨p, heap⟩, hmalloc, hrun⟩ := Option.bind_eq_some_iff.1 hrun
    refine ⟨p, heap, hmalloc, ?_⟩
    rintro rfl
    dsimp only at hrun
    rw [if_pos rfl] at hrun
    have hneg := (Prod.mk.inj (Option.some.inj hrun)).1
    omega
  obtain ⟨hlen, hbytes⟩ : ret.toNat = min size (node.size - offset) ∧
      ∀ x < min size (node.size - offset), out x = byteAt fs.bpb fs.disk l (offset + x) := by
    rcases Nat.lt_or_ge offset node.size with hlt | hge
    · obtain ⟨p, heap, hmalloc, hp⟩ := hbuffer hlt
      obtain ⟨out', heap', hrun', hbytes⟩ := hreads fs.heapStart fs.heap heap p offset size buf
        hmalloc hp (by omega)
      have heq := hrun.symm.trans hrun'
      obtain ⟨rfl, rfl, -⟩ := Prod.mk.inj (Option.some.inj heq) |>.imp_right Prod.mk.inj
      refine ⟨?_, hbytes⟩
      have hpos := clusterBytes_pos hb.dataGeometry
      rw [toInt, if_pos (by omega), Int.toNat_natCast]
    · rw [fat16VfsRead, if_pos hmounted, if_pos hge] at hrun
      obtain ⟨rfl, -⟩ := Prod.mk.inj (Option.some.inj hrun)
      have hnone : min size (node.size - offset) = 0 := by omega
      rw [hnone]
      exact ⟨rfl, fun x hx => absurd hx (Nat.not_lt_zero x)⟩
  rw [hlen]
  refine List.ext_getElem? fun x => ?_
  rcases Nat.lt_or_ge x (min size (node.size - offset)) with hlt | hge
  · rw [getElem?_bytesAt hlt, Nat.zero_add, hbytes x hlt, List.getElem?_take_of_lt (by omega),
      List.getElem?_drop, getElem?_bytesAt (by omega), Nat.zero_add]
  · rw [List.getElem?_eq_none (by rwa [length_bytesAt]), List.getElem?_eq_none (by
      rw [List.length_take, List.length_drop, length_bytesAt]
      exact hge)]

end Fat16

end Yotos
