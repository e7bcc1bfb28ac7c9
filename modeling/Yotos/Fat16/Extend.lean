import Yotos.Fat16.Alloc
import Yotos.Fat16.Frame

/-!
# Extending a chain and writing its bytes

One allocation, the walk of `fat16_vfs_write` to a cluster, and its loop. `Grown`
says what such steps do to the chain they work on: it is extended by clusters that
were free, and nothing outside the chain changes. It composes, so the loop is an
induction over its rounds.
-/

namespace Yotos

namespace Fat16

open Bytes Library

variable {b : Bpb} {top : ℕ} {d d' d'' : Disk} {c k first : ℕ} {l l' l'' : List ℕ}

/-- Every zero entry of the table is a cluster that chains may use. -/
def FreeBelow (b : Bpb) (top : ℕ) (d : Disk) : Prop :=
  ∀ k < 256 * b.fatSize, fatAt b d k = 0 → InUse top k

/-- The table has no zero entry left. -/
def Full (b : Bpb) (d : Disk) : Prop := ∀ k < 256 * b.fatSize, 2 ≤ k → fatAt b d k ≠ 0

/-- The chain `l` became `l'`, with first cluster `first`. -/
structure Grown (b : Bpb) (top : ℕ) (d : Disk) (l : List ℕ) (first : ℕ) (d' : Disk)
    (l' : List ℕ) : Prop where
  isPrefix : l <+: l'
  fresh : ∀ c ∈ l', c ∈ l ∨ fatAt b d c = 0
  chain : ClusterChain b top d' first l'
  frame : Frame b d d' (· ∈ l') fun _ => False

theorem Grown.refl (h : ClusterChain b top d first l) : Grown b top d l first d l where
  isPrefix := List.prefix_refl l
  fresh _ hc := Or.inl hc
  chain := h
  frame := Frame.refl b d _ _

theorem Grown.trans (hb : Geometry b top) {first' : ℕ} (h : Grown b top d l first d' l')
    (h' : Grown b top d' l' first' d'' l'') : Grown b top d l first' d'' l'' where
  isPrefix := h.isPrefix.trans h'.isPrefix
  fresh c hc := by
    rcases h'.fresh c hc with hmem | hzero
    · exact h.fresh c hmem
    · by_cases hmem : c ∈ l'
      · exact h.fresh c hmem
      · right
        rw [← h.frame.fat c ((h'.chain.inside_of_mem hc).lt_table hb) hmem]
        exact hzero
  chain := h'.chain
  frame := (h.frame.mono (fun _ hc => h'.isPrefix.subset hc) fun _ hx => hx).trans h'.frame

/-- A free cluster after the step was free before it. -/
theorem Grown.freeBelow (h : Grown b top d l first d' l')
    (hfree : FreeBelow b top d) : FreeBelow b top d' := by
  intro k hk hzero
  refine hfree k hk ?_
  rw [← h.frame.fat k hk fun hmem => ?_]
  · exact hzero
  · rcases h.chain.next_mem_or_stop hmem with hin | hmark
    · have := (h.chain.inside_of_mem hin).1
      omega
    · have : 0xFFF8 ≤ fatAt b d' k := hmark
      omega

/-- `fat_alloc_cluster` where the zero entries are usable clusters. -/
theorem fatAllocCluster_cases (hb : Geometry b top) (hfree : FreeBelow b top d) :
    (Full b d ∧ fatAllocCluster b d = (0, d)) ∨
      ∃ c, InUse top c ∧ fatAt b d c = 0 ∧
        fatAllocCluster b d = (c, fatSetEntry b d c 0xFFFF) := by
  cases hfind : findFreeCluster b d with
  | none => exact Or.inl ⟨findFreeCluster_eq_none.1 hfind, by rw [fatAllocCluster, hfind]⟩
  | some k =>
      have hzero := findFreeCluster_eq_some_iff.1 hfind
      have huse := hfree k hzero.lt hzero.zero
      refine Or.inr ⟨k, huse, hzero.zero, ?_⟩
      rw [fatAllocCluster_of_firstZero hzero, Nat.mod_eq_of_lt (huse.lt hb)]

/-- Writing an entry keeps everything outside that cluster. -/
theorem frame_fatSetEntry (hb : Geometry b top) (hc : InUse top c) (value : ℕ) :
    Frame b d (fatSetEntry b d c value) (· = c) fun _ => False where
  fat _ hk hne := fatAt_fatSetEntry_of_ne (hc.lt hb) hk hne
  bytes _ hx _ _ := fatSetEntry_outside (hc.lt hb) (hc.lt_table hb) hb.fatCount_pos hx

/-- The first cluster of a file. -/
theorem grown_alloc (hb : Geometry b top) (hc : InUse top c) (hzero : fatAt b d c = 0) :
    Grown b top d [] c (fatSetEntry b d c 0xFFFF) [c] where
  isPrefix := List.nil_prefix
  fresh x hx := by
    obtain rfl := List.mem_singleton.1 hx
    exact Or.inr hzero
  chain := by
    refine Chain.single hc ?_
    rw [fatAt_fatSetEntry_self (hc.lt hb) (hc.lt_table hb) (by omega)]
    exact Nat.le_of_ble_eq_true rfl
  frame := (frame_fatSetEntry hb hc _).mono (fun _ hx => List.mem_singleton.2 hx) fun _ hx => hx

/-- One more cluster, linked behind the last one. -/
theorem grown_link (hb : Geometry b top) {xs : List ℕ} {x : ℕ}
    (hl : ClusterChain b top d first (xs ++ [x])) (hc : InUse top c) (hzero : fatAt b d c = 0) :
    Grown b top d (xs ++ [x]) first (fatSetEntry b (fatSetEntry b d c 0xFFFF) x c)
      (xs ++ [x, c]) := by
  have hx : InUse top x := hl.inside_of_mem (by simp)
  have hnodup := hl.nodup fun _ => InUse.not_endMark hb
  have hcl : c ∉ xs ++ [x] := by
    intro hmem
    rcases hl.next_mem_or_stop hmem with hin | hmark
    · have := (hl.inside_of_mem hin).1
      omega
    · have : 0xFFF8 ≤ fatAt b d c := hmark
      omega
  have hcx : c ≠ x := fun heq => hcl (by simp [heq])
  have hset (k : ℕ) (hk : k < 256 * b.fatSize) (hkc : k ≠ c) (hkx : k ≠ x) :
      fatAt b (fatSetEntry b (fatSetEntry b d c 0xFFFF) x c) k = fatAt b d k := by
    rw [fatAt_fatSetEntry_of_ne (hx.lt hb) hk hkx,
      fatAt_fatSetEntry_of_ne (hc.lt hb) hk hkc]
  refine ⟨⟨[c], by simp⟩, fun y hy => ?_, ?_, ?_⟩
  · rcases List.mem_append.1 hy with hin | hin
    · exact Or.inl (by simp [hin])
    · rcases List.mem_cons.1 hin with rfl | hin
      · exact Or.inl (by simp)
      · obtain rfl := List.mem_singleton.1 hin
        exact Or.inr hzero
  · refine Chain.snoc hl (fun z hz => ?_) ?_ hc ?_
    · have hzx : z ≠ x := by
        rintro rfl
        rw [List.nodup_append] at hnodup
        exact hnodup.2.2 z hz z (List.mem_singleton.2 rfl) rfl
      have hzc : z ≠ c := fun heq => hcl (by simp [← heq, hz])
      exact hset z ((hl.inside_of_mem (by simp [hz])).lt_table hb) hzc hzx
    · exact fatAt_fatSetEntry_self (hx.lt hb) (hx.lt_table hb) (hc.lt hb)
    · rw [fatAt_fatSetEntry_of_ne (hx.lt hb) (hc.lt_table hb) hcx,
        fatAt_fatSetEntry_self (hc.lt hb) (hc.lt_table hb) (by omega)]
      exact Nat.le_of_ble_eq_true rfl
  · exact ((frame_fatSetEntry hb hc _).mono (fun y hy => by simp [hy]) fun _ h => h).trans
      ((frame_fatSetEntry hb hx _).mono (fun y hy => by simp [hy]) fun _ h => h)

/-- The walk reaches the cluster `n` links further on, in the extended chain, or the
table is full and the chain does not go that far. It writes nothing but the table. -/
theorem extendWalk_spec (hb : Geometry b top) {n x : ℕ} {xs ys : List ℕ}
    (hl : ClusterChain b top d first (xs ++ x :: ys)) (hfree : FreeBelow b top d) :
    ∃ l', Grown b top d (xs ++ x :: ys) first (extendWalk b n x d).2.2 l' ∧
      ((extendWalk b n x d).1 = true →
        l'[xs.length + n]? = some (extendWalk b n x d).2.1) ∧
      ((extendWalk b n x d).1 = false →
        Full b (extendWalk b n x d).2.2 ∧ l'.length ≤ xs.length + n) ∧
      ∀ a, 512 * b.rootDirLba ≤ a → (extendWalk b n x d).2.2 a = d a := by
  induction n generalizing d x xs ys with
  | zero =>
      refine ⟨xs ++ x :: ys, Grown.refl hl, fun _ => ?_, fun h => Bool.noConfusion h,
        fun _ _ => rfl⟩
      simp [extendWalk]
  | succ n ih =>
      have hx : InUse top x := hl.inside_of_mem (by simp)
      have hentry : fatEntry b d x = fatAt b d x := fatEntry_eq (hx.lt hb)
      have hafter := hl.after
      cases ys with
      | cons y ys =>
          have hy : InUse top y := hl.inside_of_mem (by simp)
          have hnext : fatAt b d x = y := hafter.1.symm
          have hsplit : xs ++ x :: y :: ys = (xs ++ [x]) ++ y :: ys := by simp
          have hlen : (xs ++ [x]).length + n = xs.length + (n + 1) := by simp; omega
          rw [extendWalk]
          simp only [hentry, hnext, isCluster_of_inUse hb hy, if_true]
          rw [hsplit] at hl ⊢
          rw [← hlen]
          exact ih hl hfree
      | nil =>
          rw [extendWalk]
          simp only [hentry, isCluster_of_endMark hafter, Bool.false_eq_true, if_false]
          rcases fatAllocCluster_cases hb hfree with ⟨hfull, halloc⟩ | ⟨c, hc, hzero, halloc⟩
          · simp only [halloc, if_true]
            refine ⟨xs ++ [x], Grown.refl hl, fun h => Bool.noConfusion h,
              fun _ => ⟨hfull, ?_⟩, fun _ _ => trivial⟩
            simp
          · have hne : c ≠ 0 := by
              have := hc.1
              omega
            have hstep := grown_link hb hl hc hzero
            have hsplit : xs ++ [x, c] = (xs ++ [x]) ++ [c] := by simp
            have hlen : (xs ++ [x]).length + n = xs.length + (n + 1) := by simp; omega
            have hfree' := hstep.freeBelow hfree
            have hl' := hstep.chain
            rw [hsplit] at hl' hstep
            simp only [halloc, hne, if_false]
            obtain ⟨l', hgrown, hok, hfail, hbytes⟩ := ih hl' hfree'
            rw [hlen] at hok hfail
            refine ⟨l', hstep.trans hb hgrown, hok, hfail, fun a ha => ?_⟩
            rw [hbytes a ha, fatSetEntry_outside (hx.lt hb) (hx.lt_table hb) hb.fatCount_pos ha,
              fatSetEntry_outside (hc.lt hb) (hc.lt_table hb) hb.fatCount_pos ha]

end Fat16

end Yotos
