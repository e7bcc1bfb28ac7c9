import Yotos.Fat16.Termination

/-!
# The listing of a directory

`fat16_vfs_readdir` and `fat16_vfs_finddir` are two scans that skip and stop in code of
their own. On a directory that ends, a scan is a recursion over the list of its slots.
The listing is what is left of that list, and both functions are described by it:
the one returns its entries by number, the other the first entry of a name.
-/

namespace Yotos

namespace Fat16

open Bytes Kheap

variable {σ α : Type*} {b : Bpb} {d : Disk} {dir n e : ℕ}
  {visit : (lba : ℕ) → ℕ → Bytes → σ → Visit σ α}

/-! ## A scan as a recursion over slots -/

/-- The loop body at the slots of a list, one after the other. -/
def scanSlots (b : Bpb) (d : Disk) (dir : ℕ) (visit : (lba : ℕ) → ℕ → Bytes → σ → Visit σ α) :
    List ℕ → σ → Visit σ α
  | [], s => .next s
  | k :: ks, s =>
      match slotVisit b d dir visit k s with
      | .next s => scanSlots b d dir visit ks s
      | .done r => .done r

/-- What a scan returns that stops where the visits do. -/
def Visit.result : Visit σ α → Option α
  | .next _ => none
  | .done r => r

theorem scanSlots_append (ks ls : List ℕ) (s : σ) :
    scanSlots b d dir visit (ks ++ ls) s =
      match scanSlots b d dir visit ks s with
      | .next s => scanSlots b d dir visit ls s
      | .done r => .done r := by
  induction ks generalizing s with
  | nil => rfl
  | cons k ks ih =>
      rw [List.cons_append, scanSlots, scanSlots]
      cases slotVisit b d dir visit k s with
      | next s => exact ih s
      | done r => rfl

theorem scanSector_eq_scanSlots (hspc : 1 ≤ b.spc) {m i : ℕ} (hm : m + i = 16) (s : σ) :
    scanSector (visit (dirSectorLba b d dir n)) (readSector d (dirSectorLba b d dir n)) m i s =
      scanSlots b d dir visit (List.range' (16 * n + i) m) s := by
  induction m generalizing i s with
  | zero => rfl
  | succ m ih =>
      rw [scanSector, List.range'_succ, scanSlots, slotVisit_eq hspc d dir visit n (by omega)]
      cases slotVisit b d dir visit (16 * n + i) s with
      | next s => exact ih (by omega) s
      | done r => rfl

/-- A scan of a directory of `e` sectors, from sector `n` on. -/
theorem scanDir_eq_scanSlots (hspc : 1 ≤ b.spc) (he : e < 2 ^ 32)
    (hend : dirSectorLba b d dir e = 0) (hbefore : ∀ m < e, dirSectorLba b d dir m ≠ 0)
    {t : ℕ} (hnt : n + t = e) {fuel : ℕ} (hfuel : t < fuel) (s : σ) :
    scanDir b d dir visit fuel n s =
      some (scanSlots b d dir visit (List.range' (16 * n) (16 * t)) s).result := by
  induction t generalizing n fuel s with
  | zero =>
      obtain ⟨fuel, rfl⟩ : ∃ f, fuel = f + 1 := ⟨fuel - 1, by omega⟩
      obtain rfl : n = e := by omega
      rw [scanDir, if_pos hend]
      rfl
  | succ t ih =>
      obtain ⟨fuel, rfl⟩ : ∃ f, fuel = f + 1 := ⟨fuel - 1, by omega⟩
      have hsplit : List.range' (16 * n) (16 * (t + 1)) =
          List.range' (16 * n + 0) 16 ++ List.range' (16 * (n + 1)) (16 * t) := by
        rw [Nat.mul_succ, Nat.add_comm (16 * t), ← List.range'_append_1]
        rfl
      rw [scanDir, if_neg (hbefore n (by omega)), scanSector_eq_scanSlots hspc rfl, hsplit,
        scanSlots_append]
      cases scanSlots b d dir visit (List.range' (16 * n + 0) 16) s with
      | next s =>
          dsimp only
          rw [Nat.mod_eq_of_lt (by omega)]
          exact ih (by omega) (by omega) s
      | done r => rfl

/-- A directory that ends does so within the sectors of 65536 clusters. -/
theorem exists_first_end (hspc : 1 ≤ b.spc) (h : ∃ n, dirSectorLba b d dir n = 0) :
    ∃ e < 2 ^ 28, dirSectorLba b d dir e = 0 ∧ ∀ m < e, dirSectorLba b d dir m ≠ 0 := by
  have hbound : ∃ e < 2 ^ 28, dirSectorLba b d dir e = 0 := by
    obtain ⟨n, hn⟩ := h
    by_cases hdir : dir = 0
    · subst hdir
      refine ⟨b.rootDirSectors, ?_, by rw [dirSectorLba_root, if_pos le_rfl]⟩
      have hcount := b.rootEntryCount.toNat_lt
      unfold Bpb.rootDirSectors
      omega
    -- a cluster of the chain that is none, or that lies on sector 0
    have hstop : ∃ m, isCluster (chainCluster b d dir m) = false ∨
        b.clusterLba (chainCluster b d dir m) = 0 := by
      by_contra hno
      push Not at hno
      have hall : ∀ m, isCluster (chainCluster b d dir m) = true :=
        fun m => Bool.eq_false_imp_eq_true.1 fun hf => absurd hf (hno m).1
      have hskip : skipClusters b d (n / b.spc) (dir % 65536) =
          some (chainCluster b d dir (n / b.spc)) := skipClusters_of_forall fun i _ => hall i
      rw [dirSectorLba, if_neg hdir, hskip] at hn
      simp only [hall, if_true] at hn
      have hlba := (hno (n / b.spc)).2
      omega
    obtain ⟨m, hm⟩ := hstop
    obtain ⟨i, hi, heq⟩ := Library.exists_iterate_lt (chainCluster_lt b d dir) m
    have hcluster : chainCluster b d dir i = chainCluster b d dir m := heq
    rw [← hcluster] at hm
    have hmul := Nat.mul_le_mul (show i ≤ 65535 by omega) (Nat.le_of_lt_succ b.spc_lt)
    have hdiv : i * b.spc / b.spc = i := Nat.mul_div_cancel i hspc
    refine ⟨i * b.spc, by omega, ?_⟩
    rcases hm with hm | hm
    · exact dirSectorLba_of_not_isCluster hdir (hdiv.symm ▸ hm)
    · rcases dirSectorLba_eq_chainCluster (b := b) (d := d) hdir (i * b.spc) with hend | hlba
      · exact hend
      · rw [hlba, hdiv, Nat.mul_mod_left, hm]
  obtain ⟨e, he, hend⟩ := hbound
  have hex : ∃ e, dirSectorLba b d dir e = 0 := ⟨e, hend⟩
  refine ⟨Nat.find hex, (Nat.find_min' hex hend).trans_lt he, Nat.find_spec hex, fun m hm => ?_⟩
  exact Nat.find_min hex hm

/-! ## The listing -/

/-- An entry that `fat16_vfs_readdir` counts. -/
def Listed (e : Bytes) : Prop := Visible e ∧ e 0 ≠ 0x2E

instance (e : Bytes) : Decidable (Listed e) :=
  inferInstanceAs (Decidable (Visible e ∧ e 0 ≠ 0x2E))

/-- What `fat16_vfs_readdir` returns for an entry. -/
def direntOf (e : Bytes) : VfsDirent :=
  ⟨format83 e, firstCluster e, if isDirectory e then vfsDir else vfsFile⟩

/-- The entries counted before the end-of-directory mark. -/
def listing : List Bytes → List VfsDirent
  | [] => []
  | e :: es =>
      if e 0 = 0 then []
      else if Listed e then direntOf e :: listing es
      else listing es

/-- The names are equal but for the case of letters. -/
def sameName (xs ys : List UInt8) : Bool := xs.map toUpper = ys.map toUpper

theorem length_listing_le (es : List Bytes) : (listing es).length ≤ es.length := by
  induction es with
  | nil => exact le_rfl
  | cons e es ih =>
      rw [listing]
      split_ifs
      · simp
      · simpa using ih
      · exact ih.trans (by simp)

theorem readdirVisit_eq (index lba i : ℕ) (e : Bytes) (valid : ℕ) :
    readdirVisit index lba i e valid =
      if e 0 = 0 then .done none
      else if Listed e then
        if valid = index then .done (some (direntOf e)) else .next ((valid + 1) % 2 ^ 32)
      else .next valid := by
  have htwo := skipEntry_eq_two (e := e)
  unfold readdirVisit Listed Visible direntOf
  by_cases hzero : e 0 = 0
  · rw [if_pos (htwo.2 hzero), if_pos hzero]
  · rw [if_neg fun h => hzero (htwo.1 h), if_neg hzero]
    by_cases hskip : skipEntry e = 1
    · simp [hskip]
    · have hnone : skipEntry e = 0 := by
        unfold skipEntry at hskip ⊢
        split_ifs at hskip ⊢ <;> simp_all
      by_cases hvol : isVolumeId e = true <;> by_cases hdot : e 0 = 0x2E <;>
        simp [hnone, hvol, hdot]

/-- Counting up to an index is indexing the listing. -/
theorem readdir_scanSlots {index valid : ℕ} (hindex : index < 2 ^ 32) (ks : List ℕ)
    (hle : valid ≤ index)
    (hfit : valid + ks.length ≤ 2 ^ 32) :
    (scanSlots b d dir (readdirVisit index) ks valid).result =
      (listing (ks.map fun k => entryAt d (slotAddr b d dir k)))[index - valid]? := by
  induction ks generalizing valid with
  | nil => rfl
  | cons k ks ih =>
      rw [scanSlots, slotVisit, readdirVisit_eq, List.map_cons, listing]
      split_ifs with hzero hlisted hhere
      · rfl
      · subst hhere
        simp [Visit.result]
      · have hlen : (k :: ks).length = ks.length + 1 := rfl
        have hmod : (valid + 1) % 2 ^ 32 = valid + 1 := Nat.mod_eq_of_lt (by omega)
        dsimp only
        rw [hmod, ih (by omega) (by omega), show index - valid = index - (valid + 1) + 1 by omega,
          List.getElem?_cons_succ]
      · exact ih hle (by simp only [List.length_cons] at hfit; omega)

theorem nameMatch_eq_sameName {e : Bytes} {name : List UInt8} (hname : 0 ∉ name) :
    nameMatch e name = sameName (format83 e) name := by
  rw [Bool.eq_iff_iff, nameMatch_iff hname, sameName, decide_eq_true_eq]

theorem trimEnd_cons {x : UInt8} (hx : x ≠ 0x20) (xs : List UInt8) :
    ∃ rest, trimEnd (x :: xs) = x :: rest := by
  rw [trimEnd, List.reverse_cons, List.dropWhile_append]
  split_ifs
  · exact ⟨[], by simp [hx]⟩
  · exact ⟨(xs.reverse.dropWhile (· = 0x20)).reverse, by simp⟩

theorem format83_of_dot {e : Bytes} (hdot : e 0 = 0x2E) :
    ∃ rest, format83 e = 0x2E :: rest := by
  have hmap : (List.range 8).map e = e 0 :: (List.range 7).map fun k => e (k + 1) := by
    rw [List.range_succ_eq_map, List.map_cons, List.map_map]
    rfl
  obtain ⟨rest, hrest⟩ := trimEnd_cons (show e 0 ≠ 0x20 by simp [hdot])
    ((List.range 7).map fun k => e (k + 1))
  rw [format83, hmap, hrest, hdot, cString]
  split_ifs <;> simp

/-- An entry that begins with a dot is found under names that do only. -/
theorem nameMatch_of_dot {e : Bytes} {name : List UInt8} (hname : 0 ∉ name)
    (hhead : name.head? ≠ some 0x2E) (hdot : e 0 = 0x2E) : nameMatch e name = false := by
  obtain ⟨rest, hformat⟩ := format83_of_dot hdot
  rw [Bool.eq_false_iff, Ne, nameMatch_iff hname, hformat]
  intro heq
  cases name with
  | nil => cases heq
  | cons x xs =>
      rw [List.map_cons, List.map_cons, List.cons.injEq] at heq
      have hx : x = 0x2E := toUpper_eq_of_lt (by decide) heq.1.symm
      exact hhead (by rw [hx]; rfl)

/-- Looking a name up is searching the listing. -/
theorem finddir_scanSlots {name : List UInt8} (hname : 0 ∉ name)
    (hhead : name.head? ≠ some 0x2E) (ks : List ℕ) :
    (scanSlots b d dir (finddirVisit name) ks ()).result.map (fun r => direntOf r.1) =
      (listing (ks.map fun k => entryAt d (slotAddr b d dir k))).find?
        fun ent => sameName ent.name name := by
  induction ks with
  | nil => rfl
  | cons k ks ih =>
      rw [scanSlots, slotVisit, finddirVisit_eq, List.map_cons, listing]
      split_ifs with hzero hmatch hlisted hlisted
      · rfl
      · rw [List.find?_cons]
        have hsame : sameName (direntOf (entryAt d (slotAddr b d dir k))).name name = true :=
          (nameMatch_eq_sameName hname).symm.trans hmatch.2
        simp [Visit.result, hsame]
      · refine absurd ?_ hlisted
        refine ⟨hmatch.1, fun hdot => ?_⟩
        rw [nameMatch_of_dot hname hhead hdot] at hmatch
        exact absurd hmatch.2 (by simp)
      · rw [List.find?_cons]
        have hsame : sameName (direntOf (entryAt d (slotAddr b d dir k))).name name = false := by
          rw [← Bool.not_eq_true]
          exact fun h => hmatch ⟨hlisted.1, (nameMatch_eq_sameName hname).trans h⟩
        rw [hsame]
        exact ih
      · exact ih

/-- For every directory that ends, `fat16_vfs_readdir` gives the entries of one list by
their numbers, and `fat16_vfs_finddir` the first entry of that list that has the name, if
there is one. -/
theorem finddir_eq_find_readdir (fs : Fs) (node : VfsNode) (hspc : 1 ≤ fs.bpb.spc)
    (hends : ∃ n, dirSectorLba fs.bpb fs.disk node.inode n = 0) :
    ∃ (L : List VfsDirent) (rounds : ℕ), ∀ fuel > rounds,
      (∀ index < 2 ^ 32, fat16VfsReaddir fuel node index fs = some L[index]?) ∧
        ∀ name, 0 ∉ name → name.head? ≠ some 0x2E → ∀ p heap,
          kmalloc fs.heapStart vfsNodeSize fs.heap = some (p, heap) → p ≠ 0 →
          ∃ r fs', fat16VfsFinddir fuel node name fs = some (r, fs') ∧
            (r = none ↔ ∀ ent ∈ L, sameName ent.name name = false) ∧
            ∀ found, r = some found → ∃ ent, L.find? (fun ent => sameName ent.name name) =
              some ent ∧ found.name = ent.name ∧ found.inode = ent.inode ∧
                found.flags = ent.flags := by
  by_cases hmounted : fs.mounted = true
  swap
  · refine ⟨[], 0, fun fuel _ => ⟨fun index _ => ?_, fun name _ _ p heap _ _ => ?_⟩⟩
    · rw [fat16VfsReaddir, if_neg hmounted]
      rfl
    · refine ⟨none, fs, ?_, by simp, by simp⟩
      rw [fat16VfsFinddir, if_neg hmounted]
  obtain ⟨e, he, hend, hbefore⟩ := exists_first_end hspc hends
  obtain ⟨ks, hks⟩ : ∃ ks, ks = List.range' (16 * 0) (16 * e) := ⟨_, rfl⟩
  have hlen : ks.length = 16 * e := by rw [hks, List.length_range']
  refine ⟨listing (ks.map fun k => entryAt fs.disk (slotAddr fs.bpb fs.disk node.inode k)), e,
    fun fuel hfuel => ⟨fun index hindex => ?_, fun name hname hhead p heap hmalloc hp => ?_⟩⟩
  · have hscan := @readdir_scanSlots fs.bpb fs.disk node.inode index 0 hindex ks
      (Nat.zero_le index) (by omega)
    rw [fat16VfsReaddir, if_pos hmounted,
      scanDir_eq_scanSlots hspc (by omega) hend hbefore (Nat.zero_add e) hfuel, ← hks, hscan]
    rfl
  · have hscan := @finddir_scanSlots fs.bpb fs.disk node.inode name hname hhead ks
    rw [fat16VfsFinddir, if_pos hmounted,
      scanDir_eq_scanSlots hspc (by omega) hend hbefore (Nat.zero_add e) hfuel, ← hks]
    cases hresult : (scanSlots fs.bpb fs.disk node.inode (finddirVisit name) ks ()).result with
    | none =>
        rw [hresult, Option.map_none] at hscan
        refine ⟨none, fs, rfl, ?_, by simp⟩
        simpa using List.find?_eq_none.1 hscan.symm
    | some r =>
        obtain ⟨x, lba, i⟩ := r
        rw [hresult, Option.map_some] at hscan
        refine ⟨some (nodeOf x lba i p), { fs with heap := heap }, by simp [hmalloc, hp], ?_, ?_⟩
        · refine iff_of_false (by simp) fun hall => ?_
          have hfound := List.find?_some hscan.symm
          rw [hall _ (List.mem_of_find?_eq_some hscan.symm)] at hfound
          exact absurd hfound (by simp)
        · rintro found hfound
          obtain rfl := Option.some.inj hfound
          exact ⟨direntOf x, hscan.symm, rfl, rfl, rfl⟩

/-- The root directory with the files `A` and `B`: the lookup of `b` returns the entry that
has number 1. -/
theorem finddir_eq_find_readdir_small :
    ∃ (L : List VfsDirent) (fuel : ℕ) (ent : VfsDirent) (found : VfsNode) (fs' : Fs),
      (∀ index < 2 ^ 32,
        fat16VfsReaddir fuel fat16RootNode index (mountedFs pairVolume) = some L[index]?) ∧
      L[1]? = some ent ∧ L.find? (fun ent => sameName ent.name [0x62]) = some ent ∧
      fat16VfsFinddir fuel fat16RootNode [0x62] (mountedFs pairVolume) = some (some found, fs') ∧
      found.name = ent.name ∧ found.inode = ent.inode ∧ found.flags = ent.flags := by
  have hmounted : (mountedFs pairVolume).mounted = true := rfl
  have hends : ∃ n, dirSectorLba (mountedFs pairVolume).bpb pairVolume 0 n = 0 :=
    ⟨1, by decide +kernel⟩
  obtain ⟨L, rounds, h⟩ := finddir_eq_find_readdir (mountedFs pairVolume) fat16RootNode
    (by decide +kernel) hends
  obtain ⟨hlist, hfind⟩ := h (rounds + 2) (by omega)
  have hread : ∀ index r, fat16VfsReaddir 2 fat16RootNode index (mountedFs pairVolume) = some r →
      index < 2 ^ 32 → L[index]? = r := by
    intro index r hr hindex
    have hmore : fat16VfsReaddir (rounds + 2) fat16RootNode index (mountedFs pairVolume) =
        some r := by
      rw [fat16VfsReaddir, if_pos hmounted] at hr ⊢
      exact scanDir_mono (by omega) hr
    exact Option.some.inj ((hlist index hindex).symm.trans hmore)
  have hfirst := hread 0 (some ⟨[0x41], 2, vfsFile⟩) (by decide +kernel) (by omega)
  have hsecond := hread 1 (some ⟨[0x42], 3, vfsFile⟩) (by decide +kernel) (by omega)
  have hheap : (kmalloc (mountedFs pairVolume).heapStart vfsNodeSize
      (mountedFs pairVolume).heap).map Prod.fst = some 0x111010 := by
    decide +kernel
  obtain ⟨⟨p, heap⟩, hmalloc, rfl⟩ := Option.map_eq_some_iff.1 hheap
  obtain ⟨r, fs', hrun, hnone, hsome⟩ :=
    hfind [0x62] (by decide) (by decide) _ heap hmalloc (by decide)
  cases r with
  | none =>
      have hdiffers := hnone.1 rfl _ (List.mem_of_getElem? hsecond)
      exact absurd hdiffers (by decide)
  | some found =>
      obtain ⟨ent, hent, hfound⟩ := hsome found rfl
      have hL : L.find? (fun ent => sameName ent.name [0x62]) = some ⟨[0x42], 3, vfsFile⟩ := by
        cases L with
        | nil => cases hfirst
        | cons a L =>
            cases L with
            | nil => cases hsecond
            | cons b L =>
                obtain rfl := Option.some.inj hfirst
                obtain rfl := Option.some.inj hsecond
                rfl
      obtain rfl := Option.some.inj (hL.symm.trans hent)
      exact ⟨L, rounds + 2, _, found, fs', hlist, hsecond, hL, hrun, hfound⟩

end Fat16

end Yotos
