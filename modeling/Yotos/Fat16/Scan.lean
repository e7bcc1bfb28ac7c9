import Yotos.Fat16.Frame

/-!
# Scanning a directory

The two loops of `scanDir` visit the slots of a directory in order. For a loop body
without state the result is that of the first slot where it returns. Two directories
with the same sectors and related entries give related results, and a scan comes to an
end when the directory does or a slot makes every state return.
-/

namespace Yotos

namespace Fat16

open Bytes Library

variable {σ α β : Type*} {b : Bpb} {d d' : Disk} {dir : ℕ}

/-- The loop body at slot `k`. -/
def slotVisit (b : Bpb) (d : Disk) (dir : ℕ) (visit : (lba : ℕ) → ℕ → Bytes → σ → Visit σ α)
    (k : ℕ) (s : σ) : Visit σ α :=
  visit (dirSectorLba b d dir (k / 16)) (k % 16) (entryAt d (slotAddr b d dir k)) s

theorem dirSectorLba_lt (hspc : 1 ≤ b.spc) (d : Disk) (dir n : ℕ) :
    dirSectorLba b d dir n < 2 ^ 28 := by
  have hroot := b.rootDirLba_lt
  have hcount := b.rootEntryCount.toNat_lt
  unfold dirSectorLba
  split_ifs with hzero hend
  · omega
  · unfold Bpb.rootDirSectors at hend
    omega
  · cases skipClusters b d (n / b.spc) (dir % 65536) with
    | none =>
        dsimp only
        omega
    | some c =>
        dsimp only
        split_ifs with hc
        · obtain ⟨htwo, hlt⟩ := isCluster_iff.1 hc
          have hlba := b.clusterLba_add_spc_lt htwo (show c < 65536 by omega)
          have hmod := Nat.mod_lt n hspc
          omega
        · omega

/-- The entry that the loops see, as the slot of the directory. -/
theorem readSector_slot (hspc : 1 ≤ b.spc) (d : Disk) (dir n : ℕ) {i : ℕ} (hi : i < 16) :
    (fun x => readSector d (dirSectorLba b d dir n) (32 * i + x)) =
      entryAt d (slotAddr b d dir (16 * n + i)) := by
  have hdiv : (16 * n + i) / 16 = n := by omega
  have hmod : (16 * n + i) % 16 = i := by omega
  funext x
  rw [readSector_apply d (dirSectorLba_lt hspc d dir n), entryAt, slotAddr, hdiv, hmod,
    Nat.add_assoc]

theorem slotVisit_eq (hspc : 1 ≤ b.spc) (d : Disk) (dir : ℕ)
    (visit : (lba : ℕ) → ℕ → Bytes → σ → Visit σ α) (n : ℕ) {i : ℕ} (hi : i < 16) (s : σ) :
    visit (dirSectorLba b d dir n) i
        (fun x => readSector d (dirSectorLba b d dir n) (32 * i + x)) s =
      slotVisit b d dir visit (16 * n + i) s := by
  have hdiv : (16 * n + i) / 16 = n := by omega
  have hmod : (16 * n + i) % 16 = i := by omega
  rw [readSector_slot hspc d dir n hi, slotVisit, hdiv, hmod]

/-! ## Bodies without state -/

section Stateless

variable {visit : (lba : ℕ) → ℕ → Bytes → Unit → Visit Unit α}

/-- The rest of a sector, from slot `16 * n + i` on. -/
theorem scanSector_cases (hspc : 1 ≤ b.spc) (n : ℕ) {m i : ℕ} (hm : m + i = 16) :
    (scanSector (visit (dirSectorLba b d dir n)) (readSector d (dirSectorLba b d dir n))
        m i () = .next () ∧
      ∀ j, 16 * n + i ≤ j → j < 16 * n + 16 → slotVisit b d dir visit j () = .next ()) ∨
    ∃ r k, scanSector (visit (dirSectorLba b d dir n))
        (readSector d (dirSectorLba b d dir n)) m i () = .done r ∧
      16 * n + i ≤ k ∧ k < 16 * n + 16 ∧ slotVisit b d dir visit k () = .done r ∧
      ∀ j, 16 * n + i ≤ j → j < k → slotVisit b d dir visit j () = .next () := by
  induction m generalizing i with
  | zero => exact Or.inl ⟨rfl, fun j hj hj' => by omega⟩
  | succ m ih =>
      rw [scanSector, slotVisit_eq hspc d dir visit n (show i < 16 by omega)]
      cases hvisit : slotVisit b d dir visit (16 * n + i) () with
      | done r =>
          exact Or.inr ⟨r, 16 * n + i, rfl, le_rfl, by omega, hvisit, fun j hj hj' => by omega⟩
      | next u =>
          rcases ih (i := i + 1) (by omega) with ⟨hnext, hall⟩ | ⟨r, k, hdone, hk, hk', hr, hall⟩
          · refine Or.inl ⟨hnext, fun j hj hj' => ?_⟩
            rcases Nat.eq_or_lt_of_le hj with rfl | hlt
            · exact hvisit
            · exact hall j (by omega) hj'
          · refine Or.inr ⟨r, k, hdone, by omega, hk', hr, fun j hj hj' => ?_⟩
            rcases Nat.eq_or_lt_of_le hj with rfl | hlt
            · exact hvisit
            · exact hall j (by omega) hj'

/-- What a scan from sector `n` on returns: the result of the first slot that returns,
or nothing at the end of the directory. -/
def ScanResult (b : Bpb) (d : Disk) (dir : ℕ)
    (visit : (lba : ℕ) → ℕ → Bytes → Unit → Visit Unit α) (n : ℕ) (r : Option α) : Prop :=
  (∃ k, 16 * n ≤ k ∧ (∀ m, n ≤ m → m ≤ k / 16 → dirSectorLba b d dir m ≠ 0) ∧
      slotVisit b d dir visit k () = .done r ∧
      ∀ j, 16 * n ≤ j → j < k → slotVisit b d dir visit j () = .next ()) ∨
    r = none ∧ ∃ e, n ≤ e ∧ dirSectorLba b d dir e = 0 ∧
      (∀ m, n ≤ m → m < e → dirSectorLba b d dir m ≠ 0) ∧
      ∀ j, 16 * n ≤ j → j < 16 * e → slotVisit b d dir visit j () = .next ()

/-- On a directory that ends the sector number does not wrap around. -/
theorem scanDir_result (hspc : 1 ≤ b.spc) {fuel n e : ℕ} {r : Option α} (hne : n ≤ e)
    (he : e < 2 ^ 32) (hstop : dirSectorLba b d dir e = 0)
    (h : scanDir b d dir visit fuel n () = some r) : ScanResult b d dir visit n r := by
  induction fuel generalizing n with
  | zero => cases h
  | succ fuel ih =>
      rw [scanDir] at h
      split_ifs at h with hend
      · obtain rfl := Option.some.inj h
        exact Or.inr ⟨rfl, n, le_rfl, hend, fun m hm hm' => by omega, fun j hj hj' => by omega⟩
      · rcases @scanSector_cases α b d dir visit hspc n 16 0 rfl with
          ⟨hnext, hall⟩ | ⟨r', k, hdone, hk, hk', hr, hall⟩
        · rw [hnext] at h
          have hsector : ∀ m, n ≤ m → m < n + 1 → dirSectorLba b d dir m ≠ 0 := fun m hm hm' => by
            obtain rfl : m = n := by omega
            exact hend
          have hlt : n < e := by
            refine Nat.lt_of_le_of_ne hne ?_
            rintro rfl
            exact hend hstop
          have hslots : ∀ j, 16 * n ≤ j → j < 16 * (n + 1) →
              slotVisit b d dir visit j () = .next () := fun j hj hj' => hall j hj (by omega)
          dsimp only at h
          rw [Nat.mod_eq_of_lt (by omega)] at h
          rcases ih hlt h with
            ⟨k, hk, hsectors, hr, hbefore⟩ | ⟨hr, e, he, hzero, hsectors, hbefore⟩
          · refine Or.inl ⟨k, by omega, fun m hm hm' => ?_, hr, fun j hj hj' => ?_⟩
            · by_cases hlt : m < n + 1
              · exact hsector m hm hlt
              · exact hsectors m (by omega) hm'
            · by_cases hlt : j < 16 * (n + 1)
              · exact hslots j hj hlt
              · exact hbefore j (by omega) hj'
          · refine Or.inr ⟨hr, e, by omega, hzero, fun m hm hm' => ?_, fun j hj hj' => ?_⟩
            · by_cases hlt : m < n + 1
              · exact hsector m hm hlt
              · exact hsectors m (by omega) hm'
            · by_cases hlt : j < 16 * (n + 1)
              · exact hslots j hj hlt
              · exact hbefore j (by omega) hj'
        · rw [hdone] at h
          obtain rfl := Option.some.inj h
          refine Or.inl ⟨k, by omega, fun m hm hm' => ?_, hr, fun j hj hj' => hall j hj hj'⟩
          obtain rfl : m = n := by omega
          exact hend

/-- The directory of a chain ends. -/
theorem exists_dirEnd {top : ℕ} {l : List ℕ} (hb : Geometry b top)
    (hl : FileChain b top d dir l) : ∃ e < 2 ^ 32, dirSectorLba b d dir e = 0 := by
  rcases hl.cases with ⟨hlt, -⟩ | ⟨htwo, hmem, hchain⟩
  · rcases Nat.lt_or_ge dir 1 with hzero | hone
    · obtain rfl : dir = 0 := by omega
      refine ⟨b.rootDirSectors, ?_, by rw [dirSectorLba_root, if_pos le_rfl]⟩
      have hcount := b.rootEntryCount.toNat_lt
      unfold Bpb.rootDirSectors
      omega
    · obtain rfl : dir = 1 := by omega
      exact ⟨0, by omega, dirSectorLba_one b d 0⟩
  · have hdir := (hchain.inside_of_mem hmem).lt hb
    have hlen := Chain.length_le (fun _ => InUse.not_endMark hb)
      (fun _ h => Nat.lt_of_lt_of_le h.2 hb.top_le_mark) hchain
    have hmul := Nat.mul_le_mul hlen (Nat.le_of_lt_succ b.spc_lt)
    refine ⟨l.length * b.spc, by omega, ?_⟩
    rw [dirSectorLba_of_chain hb htwo hdir hchain, Nat.mul_div_cancel _ hb.spc_pos]
    simp

theorem scanDir_result_of_chain {top fuel : ℕ} {l : List ℕ} {r : Option α}
    (hb : Geometry b top) (hl : FileChain b top d dir l)
    (h : scanDir b d dir visit fuel 0 () = some r) : ScanResult b d dir visit 0 r := by
  obtain ⟨e, he, hstop⟩ := exists_dirEnd hb hl
  exact scanDir_result hb.spc_pos (Nat.zero_le e) he hstop h

end Stateless

/-! ## Two disks -/

section Relational

/-- Two loop bodies go on in the same state, or return related results. -/
inductive VisitRel (R : α → β → Prop) : Visit σ α → Visit σ β → Prop
  | next (s : σ) : VisitRel R (.next s) (.next s)
  | done {r : Option α} {r' : Option β} (h : Option.Rel R r r') : VisitRel R (.done r) (.done r')

variable {R : α → β → Prop} {visit : (lba : ℕ) → ℕ → Bytes → σ → Visit σ α}
  {visit' : (lba : ℕ) → ℕ → Bytes → σ → Visit σ β}

theorem scanSector_rel (hspc : 1 ≤ b.spc)
    (hsectors : ∀ n, dirSectorLba b d' dir n = dirSectorLba b d dir n) {n : ℕ}
    (hvisit : ∀ i < 16, ∀ s, VisitRel R (slotVisit b d dir visit (16 * n + i) s)
      (slotVisit b d' dir visit' (16 * n + i) s)) {m i : ℕ} (hm : m + i = 16) (s : σ) :
    VisitRel R
      (scanSector (visit (dirSectorLba b d dir n)) (readSector d (dirSectorLba b d dir n)) m i s)
      (scanSector (visit' (dirSectorLba b d dir n)) (readSector d' (dirSectorLba b d dir n))
        m i s) := by
  induction m generalizing i s with
  | zero => exact VisitRel.next s
  | succ m ih =>
      have hi : i < 16 := by omega
      have hstep := hvisit i hi s
      have hright := slotVisit_eq hspc d' dir visit' n hi s
      rw [hsectors n] at hright
      rw [scanSector, scanSector, slotVisit_eq hspc d dir visit n hi, hright]
      generalize slotVisit b d dir visit (16 * n + i) s = v at hstep ⊢
      generalize slotVisit b d' dir visit' (16 * n + i) s = v' at hstep ⊢
      cases hstep with
      | next u => exact ih (by omega) u
      | done h => exact VisitRel.done h

/-- Scans of related directories end alike, with related results. -/
theorem scanDir_rel (hspc : 1 ≤ b.spc)
    (hsectors : ∀ n, dirSectorLba b d' dir n = dirSectorLba b d dir n)
    (hvisit : ∀ k s, HasSlot b d dir k →
      VisitRel R (slotVisit b d dir visit k s) (slotVisit b d' dir visit' k s))
    (fuel n : ℕ) (s : σ) :
    Option.Rel (Option.Rel R) (scanDir b d dir visit fuel n s)
      (scanDir b d' dir visit' fuel n s) := by
  induction fuel generalizing n s with
  | zero => exact Option.Rel.none
  | succ fuel ih =>
      rw [scanDir, scanDir, hsectors n]
      by_cases hend : dirSectorLba b d dir n = 0
      · rw [if_pos hend, if_pos hend]
        exact Option.Rel.some Option.Rel.none
      · rw [if_neg hend, if_neg hend]
        have hslots : ∀ i < 16, ∀ s, VisitRel R (slotVisit b d dir visit (16 * n + i) s)
            (slotVisit b d' dir visit' (16 * n + i) s) := fun i hi s => by
          refine hvisit _ s ?_
          rw [HasSlot, show (16 * n + i) / 16 = n by omega]
          exact hend
        have hsector := scanSector_rel hspc hsectors hslots (show 16 + 0 = 16 from rfl) s
        generalize scanSector (visit (dirSectorLba b d dir n))
          (readSector d (dirSectorLba b d dir n)) 16 0 s = v at hsector ⊢
        generalize scanSector (visit' (dirSectorLba b d dir n))
          (readSector d' (dirSectorLba b d dir n)) 16 0 s = v' at hsector ⊢
        cases hsector with
        | next u => exact ih _ u
        | done h => exact Option.Rel.some h

end Relational

/-! ## The end of a scan -/

section Ends

variable {visit : (lba : ℕ) → ℕ → Bytes → σ → Visit σ α}

theorem scanSector_done (hspc : 1 ≤ b.spc) {n j : ℕ} (hj : j < 16)
    (hvisit : ∀ s, ∃ r, slotVisit b d dir visit (16 * n + j) s = .done r) {m i : ℕ}
    (hm : m + i = 16) (hij : i ≤ j) (s : σ) :
    ∃ r, scanSector (visit (dirSectorLba b d dir n)) (readSector d (dirSectorLba b d dir n))
      m i s = .done r := by
  induction m generalizing i s with
  | zero => omega
  | succ m ih =>
      rw [scanSector, slotVisit_eq hspc d dir visit n (show i < 16 by omega)]
      rcases Nat.eq_or_lt_of_le hij with rfl | hlt
      · obtain ⟨r, hr⟩ := hvisit s
        exact ⟨r, by rw [hr]⟩
      · cases slotVisit b d dir visit (16 * n + i) s with
        | next u => exact ih (by omega) (by omega) u
        | done r => exact ⟨r, rfl⟩

/-- A scan ends where the directory ends, or at a slot where the body always returns. -/
theorem scanDir_isSome (hspc : 1 ≤ b.spc) {n t : ℕ} (hn : n + t < 2 ^ 32)
    (hstop : dirSectorLba b d dir (n + t) = 0 ∨
      ∃ j < 16, ∀ s, ∃ r, slotVisit b d dir visit (16 * (n + t) + j) s = .done r)
    (s : σ) : ∃ r, scanDir b d dir visit (t + 1) n s = some r := by
  induction t generalizing n s with
  | zero =>
      rw [scanDir]
      split_ifs with hend
      · exact ⟨none, rfl⟩
      · obtain ⟨j, hj, hdone⟩ := hstop.resolve_left hend
        obtain ⟨r, hr⟩ := @scanSector_done σ α b d dir visit hspc n j hj hdone 16 0 rfl
          (Nat.zero_le j) s
        exact ⟨r, by rw [hr]⟩
  | succ t ih =>
      rw [scanDir]
      split_ifs with hend
      · exact ⟨none, rfl⟩
      · cases scanSector (visit (dirSectorLba b d dir n))
          (readSector d (dirSectorLba b d dir n)) 16 0 s with
        | done r => exact ⟨r, rfl⟩
        | next u =>
            have hshift : n + 1 + t = n + (t + 1) := by omega
            dsimp only
            rw [Nat.mod_eq_of_lt (by omega)]
            exact @ih (n + 1) (by omega) (hshift ▸ hstop) u

/-- More fuel does not change a scan that ends. -/
theorem scanDir_mono {fuel fuel' n : ℕ} {s : σ} {r : Option α} (hle : fuel ≤ fuel')
    (h : scanDir b d dir visit fuel n s = some r) : scanDir b d dir visit fuel' n s = some r := by
  induction fuel generalizing n s fuel' with
  | zero => cases h
  | succ fuel ih =>
      obtain ⟨m, rfl⟩ : ∃ m, fuel' = m + 1 := ⟨fuel' - 1, by omega⟩
      rw [scanDir] at h ⊢
      split_ifs at h ⊢ with hend
      · exact h
      · cases hsector : scanSector (visit (dirSectorLba b d dir n))
          (readSector d (dirSectorLba b d dir n)) 16 0 s with
        | done r' =>
            rw [hsector] at h
            exact h
        | next u =>
            rw [hsector] at h
            exact ih (by omega) h

/-- A scan of an endless directory in which no slot returns does not end. -/
theorem scanDir_eq_none (hspc : 1 ≤ b.spc) (hend : ∀ n, dirSectorLba b d dir n ≠ 0)
    (hvisit : ∀ k s, ∃ u, slotVisit b d dir visit k s = .next u) (fuel n : ℕ) (s : σ) :
    scanDir b d dir visit fuel n s = none := by
  have hsector (n : ℕ) : ∀ m i, m + i = 16 → ∀ s, ∃ u, scanSector
      (visit (dirSectorLba b d dir n)) (readSector d (dirSectorLba b d dir n)) m i s = .next u := by
    intro m
    induction m with
    | zero => exact fun i _ s => ⟨s, rfl⟩
    | succ m ih =>
        intro i hm s
        obtain ⟨u, hu⟩ := hvisit (16 * n + i) s
        rw [scanSector, slotVisit_eq hspc d dir visit n (show i < 16 by omega), hu]
        exact ih (i + 1) (by omega) u
  induction fuel generalizing n s with
  | zero => rfl
  | succ fuel ih =>
      obtain ⟨u, hu⟩ := hsector n 16 0 rfl s
      rw [scanDir, if_neg (hend n), hu]
      exact ih _ u

end Ends

end Fat16

end Yotos
