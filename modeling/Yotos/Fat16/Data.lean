import Yotos.Fat16.Extend

/-!
# The bytes of a file

`byteAt` is byte `x` of the file whose chain is `l`. The loop of `fat16_vfs_write`
replaces the bytes it reports and keeps all the others, the loop of `fat16_vfs_read`
copies them to the caller's buffer.
-/

namespace Yotos

namespace Fat16

open Bytes Library

/-- Byte `x` of the file with chain `l`. -/
def byteAt (b : Bpb) (d : Disk) (l : List ℕ) (x : ℕ) : UInt8 :=
  d (clusterAddr b (l.getD (x / b.clusterBytes) 0) + x % b.clusterBytes)

variable {b : Bpb} {top : ℕ} {d d' : Disk} {c first : ℕ} {l l' : List ℕ}

/-! ## One cluster -/

theorem readSectors_apply (hc : 2 ≤ c) (hlt : c < 65536) (buf : Bytes) {n : ℕ} (hn : n ≤ b.spc)
    (x : ℕ) :
    (List.range n).foldl
        (fun buf i => copy buf (512 * i) (readSector d (b.clusterLba c + i)) 0 512) buf x =
      if x < 512 * n then d (clusterAddr b c + x) else buf x := by
  have hlba := b.clusterLba_add_spc_lt hc hlt
  induction n with
  | zero => simp
  | succ n ih =>
      have hsector : b.clusterLba c + n < 2 ^ 28 := by omega
      rw [List.range_succ, List.foldl_append, List.foldl_cons, List.foldl_nil]
      by_cases hin : 512 * n ≤ x ∧ x < 512 * n + 512
      · rw [copy_of_mem _ _ hin, if_pos (by omega), readSector_apply d hsector, clusterAddr]
        refine congrArg d ?_
        omega
      · rw [copy_of_apart _ _ _ (by omega), ih (by omega)]
        by_cases hlow : x < 512 * n
        · rw [if_pos hlow, if_pos (by omega)]
        · rw [if_neg hlow, if_neg (by omega)]

theorem readCluster_apply (hc : 2 ≤ c) (hlt : c < 65536) (buf : Bytes) {x : ℕ}
    (hx : x < b.clusterBytes) : readCluster b d c buf x = d (clusterAddr b c + x) := by
  rw [readCluster, readSectors_apply hc hlt buf le_rfl]
  exact if_pos hx

theorem writeSectors_apply (hc : 2 ≤ c) (hlt : c < 65536) (cbuf : Bytes) {n : ℕ}
    (hn : n ≤ b.spc) (a : ℕ) :
    (List.range n).foldl
        (fun d s => writeSector d (b.clusterLba c + s) fun x => cbuf (512 * s + x)) d a =
      if clusterAddr b c ≤ a ∧ a < clusterAddr b c + 512 * n then cbuf (a - clusterAddr b c)
      else d a := by
  have hlba := b.clusterLba_add_spc_lt hc hlt
  induction n with
  | zero => rw [if_neg (by omega)]; rfl
  | succ n ih =>
      have hsector : b.clusterLba c + n < 2 ^ 28 := by omega
      rw [List.range_succ, List.foldl_append, List.foldl_cons, List.foldl_nil]
      rw [clusterAddr] at ih ⊢
      by_cases hin : 512 * (b.clusterLba c + n) ≤ a ∧ a < 512 * (b.clusterLba c + n) + 512
      · obtain ⟨x, rfl⟩ := Nat.exists_eq_add_of_le hin.1
        rw [writeSector_of_mem _ _ hsector (by omega), if_pos (by omega)]
        refine congrArg cbuf ?_
        omega
      · rw [writeSector_of_apart _ _ hsector (by omega), ih (by omega)]
        by_cases hlow : 512 * b.clusterLba c ≤ a ∧ a < 512 * b.clusterLba c + 512 * n
        · rw [if_pos hlow, if_pos (by omega)]
        · rw [if_neg hlow, if_neg (by omega)]

theorem writeCluster_of_mem (hc : 2 ≤ c) (hlt : c < 65536) (cbuf : Bytes) {x : ℕ}
    (hx : x < b.clusterBytes) : writeCluster b d c cbuf (clusterAddr b c + x) = cbuf x := by
  have hin : clusterAddr b c ≤ clusterAddr b c + x ∧
      clusterAddr b c + x < clusterAddr b c + 512 * b.spc := by
    rw [Bpb.clusterBytes] at hx
    omega
  rw [writeCluster, writeSectors_apply hc hlt cbuf le_rfl, if_pos hin, Nat.add_sub_cancel_left]

theorem writeCluster_of_not_mem (hc : 2 ≤ c) (hlt : c < 65536) (cbuf : Bytes) {a : ℕ}
    (ha : ¬ InCluster b c a) : writeCluster b d c cbuf a = d a := by
  rw [writeCluster, writeSectors_apply hc hlt cbuf le_rfl]
  exact if_neg ha

/-- The table lies before the data area. -/
theorem fatAt_congr (hb : Geometry b top) {k : ℕ} (hk : k < 256 * b.fatSize)
    (h : ∀ x, x < 512 * b.rootDirLba → d' x = d x) : fatAt b d' k = fatAt b d k := by
  have hroot : b.fatLba + b.fatSize ≤ b.rootDirLba := by
    have := Nat.mul_le_mul_right b.fatSize hb.fatCount_pos
    unfold Bpb.rootDirLba
    omega
  refine load16_congr fun x _ hx' => h x ?_
  rw [fatAddr] at hx'
  omega

theorem frame_writeCluster (hb : Geometry b top) (hc : InUse top c) (cbuf : Bytes) :
    Frame b d (writeCluster b d c cbuf) (· = c) fun _ => False where
  fat k hk _ := by
    refine fatAt_congr hb hk fun x hx => ?_
    refine writeCluster_of_not_mem hc.1 (hc.lt hb) cbuf fun hin => ?_
    have := dataAddr_le_of_inCluster hc.1 (hc.lt hb) hin
    have := rootAddr_le_dataAddr b
    omega
  bytes x _ hx _ := writeCluster_of_not_mem hc.1 (hc.lt hb) cbuf (hx c rfl)

/-- Writing a cluster of the chain keeps the chain. -/
theorem grown_writeCluster (hb : Geometry b top) (hl : ClusterChain b top d first l)
    (hc : c ∈ l) (cbuf : Bytes) : Grown b top d l first (writeCluster b d c cbuf) l where
  isPrefix := List.prefix_refl l
  fresh _ hx := Or.inl hx
  chain := by
    have huse := hl.inside_of_mem hc
    refine hl.congr fun x hx => ?_
    refine fatAt_congr hb ((hl.inside_of_mem hx).lt_table hb) fun a ha => ?_
    refine writeCluster_of_not_mem huse.1 (huse.lt hb) cbuf fun hin => ?_
    have := dataAddr_le_of_inCluster huse.1 (huse.lt hb) hin
    have := rootAddr_le_dataAddr b
    omega
  frame := (frame_writeCluster hb (hl.inside_of_mem hc) cbuf).mono
    (fun _ hx => hx ▸ hc) fun _ h => h

/-! ## The bytes of a chain -/

theorem clusterBytes_pos (hb : Geometry b top) : 0 < b.clusterBytes := by
  have := hb.spc_pos
  unfold Bpb.clusterBytes
  omega

theorem index_lt {x : ℕ} (hx : x < l.length * b.clusterBytes) : x / b.clusterBytes < l.length :=
  Nat.div_lt_of_lt_mul (by rwa [Nat.mul_comm])

theorem byteAt_eq {x : ℕ} (hx : l[x / b.clusterBytes]? = some c) :
    byteAt b d l x = d (clusterAddr b c + x % b.clusterBytes) := by
  rw [byteAt, List.getD_eq_getElem?_getD, hx, Option.getD_some]

theorem inCluster_mod (hb : Geometry b top) (c x : ℕ) :
    InCluster b c (clusterAddr b c + x % b.clusterBytes) := by
  have := Nat.mod_lt x (clusterBytes_pos hb)
  unfold InCluster
  omega

/-- The bytes within `l` of a chain that is at least as long. -/
theorem byteAt_of_isPrefix {x : ℕ} (h : l <+: l') (hx : x < l.length * b.clusterBytes) :
    byteAt b d l' x = byteAt b d l x := by
  obtain ⟨t, rfl⟩ := h
  have hlt := index_lt hx
  rw [byteAt, byteAt, List.getD_eq_getElem?_getD, List.getD_eq_getElem?_getD,
    List.getElem?_append_left hlt]

/-- The bytes of a chain are kept where the disks agree on its clusters. -/
theorem byteAt_congr (hb : Geometry b top)
    (h : ∀ c ∈ l, ∀ a, InCluster b c a → d' a = d a) {x : ℕ}
    (hx : x < l.length * b.clusterBytes) : byteAt b d' l x = byteAt b d l x := by
  have hget := List.getElem?_eq_getElem (index_lt hx)
  rw [byteAt_eq hget, byteAt_eq hget]
  exact h _ (List.getElem_mem _) _ (inCluster_mod hb _ x)

/-- The bytes of the chain after one cluster of it was written. -/
theorem byteAt_writeCluster (hb : Geometry b top) (hl : ClusterChain b top d first l) {i : ℕ}
    (hi : l[i]? = some c) (cbuf : Bytes) {x : ℕ} (hx : x < l.length * b.clusterBytes) :
    byteAt b (writeCluster b d c cbuf) l x =
      if x / b.clusterBytes = i then cbuf (x % b.clusterBytes) else byteAt b d l x := by
  have huse := hl.inside_of_mem (List.mem_of_getElem? hi)
  by_cases heq : x / b.clusterBytes = i
  · rw [if_pos heq, byteAt_eq (heq ▸ hi)]
    exact writeCluster_of_mem huse.1 (huse.lt hb) cbuf (Nat.mod_lt _ (clusterBytes_pos hb))
  · have hget := List.getElem?_eq_getElem (index_lt hx)
    have huse' := hl.inside_of_mem (List.getElem_mem (index_lt hx))
    rw [if_neg heq, byteAt_eq hget, byteAt_eq hget]
    refine writeCluster_of_not_mem huse.1 (huse.lt hb) cbuf fun hin => heq ?_
    have hsame := inCluster_unique huse.1 (huse.lt hb) huse'.1 (huse'.lt hb) hin
      (inCluster_mod hb _ x)
    have hnodup := hl.nodup fun _ => InUse.not_endMark hb
    obtain ⟨hlt, hget'⟩ := List.getElem?_eq_some_iff.1 hi
    exact (hnodup.getElem_inj_iff.1 (hget'.trans hsame)).symm

/-! ## The loop of `fat16_vfs_write` -/

/-- Bytes `lo` to `hi` of `buf` are now in the file from `offset` on, the others are
as before. -/
structure Wrote (b : Bpb) (top : ℕ) (d : Disk) (l : List ℕ) (first offset lo hi : ℕ)
    (buf : Bytes) (d' : Disk) (l' : List ℕ) : Prop where
  grown : Grown b top d l first d' l'
  le : lo ≤ hi
  fits : lo < hi → offset + hi ≤ l'.length * b.clusterBytes
  written : ∀ x, offset + lo ≤ x → x < offset + hi → byteAt b d' l' x = buf (x - offset)
  kept : ∀ x < l.length * b.clusterBytes, x < offset + lo ∨ offset + hi ≤ x →
    byteAt b d' l' x = byteAt b d l x

variable {d'' : Disk} {l'' : List ℕ} {offset lo mid hi : ℕ} {buf : Bytes}

theorem Wrote.refl (h : ClusterChain b top d first l) (lo : ℕ) :
    Wrote b top d l first offset lo lo buf d l where
  grown := Grown.refl h
  le := le_rfl
  fits h := absurd h (lt_irrefl lo)
  written x hx hx' := by omega
  kept _ _ _ := rfl

theorem length_mul_le (h : l <+: l') : l.length * b.clusterBytes ≤ l'.length * b.clusterBytes :=
  Nat.mul_le_mul_right _ h.length_le

theorem Wrote.trans (hb : Geometry b top) (h : Wrote b top d l first offset lo mid buf d' l')
    (h' : Wrote b top d' l' first offset mid hi buf d'' l'') :
    Wrote b top d l first offset lo hi buf d'' l'' where
  grown := h.grown.trans hb h'.grown
  le := h.le.trans h'.le
  fits hlt := by
    rcases Nat.lt_or_ge mid hi with hmid | hmid
    · exact h'.fits hmid
    · have heq : mid = hi := Nat.le_antisymm h'.le hmid
      subst heq
      exact (h.fits hlt).trans (length_mul_le h'.grown.isPrefix)
  written x hx hx' := by
    rcases Nat.lt_or_ge x (offset + mid) with hlt | hge
    · have hfits := h.fits (by omega)
      rw [h'.kept x (by omega) (Or.inl hlt)]
      exact h.written x hx hlt
    · exact h'.written x hge hx'
  kept x hx hout := by
    have hle := h.le
    have hle' := h'.le
    have hlen := length_mul_le (b := b) h.grown.isPrefix
    rw [h'.kept x (by omega) (by omega), h.kept x hx (by omega)]

/-- The walk changes no byte of the file. -/
theorem wrote_extendWalk (hb : Geometry b top) (hl : ClusterChain b top d first l)
    (hmem : first ∈ l) (hfree : FreeBelow b top d) (offset lo : ℕ) (buf : Bytes) (n : ℕ) :
    ∃ l', Wrote b top d l first offset lo lo buf (extendWalk b n first d).2.2 l' ∧
      ((extendWalk b n first d).1 = true → l'[n]? = some (extendWalk b n first d).2.1) ∧
      ((extendWalk b n first d).1 = false →
        Full b (extendWalk b n first d).2.2 ∧ l'.length ≤ n) := by
  obtain ⟨y, ys, rfl⟩ := List.exists_cons_of_ne_nil (List.ne_nil_of_mem hmem)
  obtain rfl := hl.1
  obtain ⟨l', hgrown, hok, hfail, hbytes⟩ :=
    extendWalk_spec (n := n) hb (List.nil_append (y :: ys) ▸ hl) hfree
  rw [List.length_nil, Nat.zero_add] at hok hfail
  rw [List.nil_append] at hgrown
  refine ⟨l', ⟨hgrown, le_rfl, fun h => absurd h (lt_irrefl lo), fun x hx hx' => by omega,
    fun x hx _ => ?_⟩, hok, hfail⟩
  rw [byteAt_of_isPrefix hgrown.isPrefix hx]
  refine byteAt_congr hb (fun c hc a ha => hbytes a ?_) hx
  have huse := hl.inside_of_mem hc
  exact (rootAddr_le_dataAddr b).trans (dataAddr_le_of_inCluster huse.1 (huse.lt hb) ha)

/-- One round of the loop, in the cluster that the walk reached. -/
theorem wrote_round (hb : Geometry b top) (hl : ClusterChain b top d first l) {n : ℕ}
    (hc : l[(offset + lo) / b.clusterBytes]? = some c)
    (hn : n ≤ b.clusterBytes - (offset + lo) % b.clusterBytes) (buf cbuf : Bytes) :
    Wrote b top d l first offset lo (lo + n) buf
      (writeCluster b d c (copy (readCluster b d c cbuf) ((offset + lo) % b.clusterBytes) buf lo n))
      l := by
  have hpos := clusterBytes_pos hb
  have huse := hl.inside_of_mem (List.mem_of_getElem? hc)
  have hidx := (List.getElem?_eq_some_iff.1 hc).1
  have hdiv := Nat.div_add_mod (offset + lo) b.clusterBytes
  have hmod := Nat.mod_lt (offset + lo) hpos
  have hend : (offset + lo) / b.clusterBytes * b.clusterBytes + b.clusterBytes ≤
      l.length * b.clusterBytes := by
    rw [← Nat.succ_mul]
    exact Nat.mul_le_mul_right _ hidx
  rw [Nat.mul_comm] at hdiv
  have hbyte (x : ℕ) (hx : x < l.length * b.clusterBytes)
      (heq : x / b.clusterBytes = (offset + lo) / b.clusterBytes) :
      readCluster b d c cbuf (x % b.clusterBytes) = byteAt b d l x := by
    rw [readCluster_apply huse.1 (huse.lt hb) cbuf (Nat.mod_lt x hpos), byteAt_eq (heq ▸ hc)]
  refine ⟨grown_writeCluster hb hl (List.mem_of_getElem? hc) _, by omega, fun _ => by omega,
    fun x hx hx' => ?_, fun x hx hout => ?_⟩
  · have hxdiv : x / b.clusterBytes = (offset + lo) / b.clusterBytes :=
      Nat.div_eq_of_lt_le (by omega) (by rw [Nat.succ_mul]; omega)
    have hxsplit := Nat.div_add_mod x b.clusterBytes
    rw [hxdiv, Nat.mul_comm] at hxsplit
    rw [byteAt_writeCluster hb hl hc _ (by omega), if_pos hxdiv, copy_of_mem _ _ (by omega)]
    refine congrArg buf ?_
    omega
  · rw [byteAt_writeCluster hb hl hc _ hx]
    split_ifs with hxdiv
    · have hxsplit := Nat.div_add_mod x b.clusterBytes
      rw [hxdiv, Nat.mul_comm] at hxsplit
      rw [copy_of_apart _ _ _ (by omega)]
      exact hbyte x hx hxdiv
    · rfl

/-- The loop of `fat16_vfs_write`. A short count means that the table is full. -/
theorem writeLoop_spec (hb : Geometry b top) {size fuel n : ℕ} {cbuf : Bytes}
    (hoff : offset + size < 2 ^ 32) (hfirst : first < 65536)
    (hl : ClusterChain b top d first l) (hmem : first ∈ l) (hfree : FreeBelow b top d)
    (hlo : lo ≤ size)
    (hrun : writeLoop b first offset size buf fuel lo cbuf d = some (n, d')) :
    n ≤ size ∧ ∃ l', Wrote b top d l first offset lo n buf d' l' ∧
      (n < size → Full b d' ∧ l'.length * b.clusterBytes ≤ offset + n) := by
  induction fuel generalizing d l lo cbuf with
  | zero =>
      rw [writeLoop] at hrun
      split_ifs at hrun with hlt
      obtain ⟨rfl, rfl⟩ := Prod.mk.inj (Option.some.inj hrun)
      exact ⟨hlo, l, Wrote.refl hl lo, fun h => absurd h hlt⟩
  | succ fuel ih =>
      rw [writeLoop] at hrun
      split_ifs at hrun with hlt
      swap
      · obtain ⟨rfl, rfl⟩ := Prod.mk.inj (Option.some.inj hrun)
        exact ⟨hlo, l, Wrote.refl hl lo, fun h => absurd h hlt⟩
      have hcur : (offset + lo) % 2 ^ 32 = offset + lo := Nat.mod_eq_of_lt (by omega)
      simp only [hcur, Nat.mod_eq_of_lt hfirst] at hrun
      obtain ⟨l₁, hwalk, hok, hfail⟩ := wrote_extendWalk hb hl hmem hfree offset lo buf
        ((offset + lo) / b.clusterBytes)
      have hmem₁ := hwalk.grown.isPrefix.subset hmem
      rcases hres : extendWalk b ((offset + lo) / b.clusterBytes) first d with ⟨ok, y, d₁⟩
      rw [hres] at hwalk hok hfail hrun
      cases ok with
      | false =>
          obtain ⟨rfl, rfl⟩ := Prod.mk.inj (Option.some.inj hrun)
          obtain ⟨hfull, hlen⟩ := hfail rfl
          refine ⟨hlo, l₁, hwalk, fun _ => ⟨hfull, ?_⟩⟩
          exact (Nat.mul_le_mul_right _ hlen).trans (Nat.div_mul_le_self _ _)
      | true =>
          have hl₁ := hwalk.grown.chain
          have hfree₁ := hwalk.grown.freeBelow hfree
          have hround := wrote_round hb hl₁ (hok rfl) (Nat.min_le_right (size - lo) _)
            buf cbuf
          have hfree₂ := hround.grown.freeBelow hfree₁
          obtain ⟨hle, l₂, hrest, hshort⟩ := ih hround.grown.chain hmem₁ hfree₂ (by omega) hrun
          exact ⟨hle, l₂, (hwalk.trans hb hround).trans hb hrest, hshort⟩

end Fat16

end Yotos
