import Mathlib.Data.Set.Subsingleton
import Yotos.Kheap.Live

/-!
# Taking and giving back

`Holding m start L`: the used blocks of the heap are the ones in `L`, and no two free
blocks are neighbours. A block that `kmalloc` returns is added to `L`, and freeing it
takes it out again, so that calls in pairs leave `L` as it was.
-/

namespace Yotos

namespace Kheap

open Bytes

variable {m m' : Bytes} {start n p : ℕ} {bs : List Block} {b : Block} {L : Set (ℕ × Block)}

/-- The used blocks with their payload addresses. -/
def Holding (m : Bytes) (start : ℕ) (L : Set (ℕ × Block)) : Prop :=
  ∃ bs, Represents m start bs ∧ Coalesced bs ∧ ∀ q c, Live start bs q c ↔ (q, c) ∈ L

/-- A block that `kmalloc` returns has its size, up to a remainder that is too small for
a block of its own. -/
theorem kmalloc_size (hp : Placed start) (h : Represents m start bs)
    (heq : kmalloc start n m = some (p, m')) (hne : p ≠ 0) {bs' : List Block}
    (h' : Represents m' start bs') (hb : Live start bs' p b) : b.size ≤ n + 16 := by
  rcases kmalloc_spec n hp h with ⟨-, hnull⟩ | ⟨xs, d, ys, m₁, rfl, -, -, hsome, hrep, -⟩
  · rw [hnull] at heq
    exact absurd (Prod.mk.inj (Option.some.inj heq)).1.symm hne
  rw [hsome] at heq
  obtain ⟨rfl, rfl⟩ := Prod.mk.inj (Option.some.inj heq)
  obtain rfl := hrep.unique h'
  obtain ⟨e, zs, hcarve, hused, hsize⟩ : ∃ e zs, carve d n = e :: zs ∧ e.free = false ∧
      e.size ≤ n + 16 := by
    unfold carve
    split_ifs with hsplit
    · exact ⟨_, _, rfl, rfl, by simp⟩
    · exact ⟨_, _, rfl, rfl, by
        dsimp only
        omega⟩
  rw [hcarve] at hb
  have hat : At start (xs ++ e :: (zs ++ ys)) (start + total xs + 16) e := at_middle _ _ _ _
  obtain rfl := Live.unique hb ⟨hat, hused⟩
  exact hsize

theorem kmalloc_coalesced (hp : Placed start) (h : Represents m start bs) (hbs : Coalesced bs)
    (heq : kmalloc start n m = some (p, m')) {bs' : List Block} (h' : Represents m' start bs') :
    Coalesced bs' := by
  rcases kmalloc_spec n hp h with ⟨-, hnull⟩ | ⟨xs, d, ys, m₁, rfl, -, hfit, hsome, hrep, -⟩
  · rw [hnull] at heq
    obtain ⟨-, rfl⟩ := Prod.mk.inj (Option.some.inj heq)
    rwa [← h.unique h']
  · rw [hsome] at heq
    obtain ⟨-, rfl⟩ := Prod.mk.inj (Option.some.inj heq)
    rw [← hrep.unique h']
    exact hbs.carve hfit.1

/-- The heap at the start: nothing is in use. -/
theorem holding_kheapInit (hp : Placed start) (m : Bytes) : Holding (kheapInit start m) start ∅ := by
  refine ⟨_, represents_kheapInit hp m, by simp [Coalesced], fun q c => ?_⟩
  simp only [Live, At, or_false, Set.mem_empty_iff_false, iff_false, not_and]
  rintro ⟨-, rfl⟩
  simp

namespace Holding

/-- One call of `kmalloc`. -/
theorem kmalloc (hp : Placed start) (h : Holding m start L) (n : ℕ) :
    kmalloc start n m = some (0, m) ∨ ∃ p m' b, kmalloc start n m = some (p, m') ∧ p ≠ 0 ∧
      n ≤ b.size ∧ b.size ≤ n + 16 ∧ (∀ c, (p, c) ∉ L) ∧ Holding m' start (insert (p, b) L) := by
  obtain ⟨bs, hrep, hbs, hlive⟩ := h
  rcases kmalloc_spec n hp hrep with ⟨-, hnull⟩ | ⟨xs, d, ys, m', -, -, -, heq, -, -⟩
  · exact Or.inl hnull
  right
  have hne : start + total xs + 16 ≠ 0 := by omega
  obtain ⟨bs', b, hrep', hsize, hnot, hlive'⟩ := kmalloc_live hp hrep heq hne
  refine ⟨_, m', b, heq, hne, hsize, kmalloc_size hp hrep heq hne hrep'
    ((hlive' _ _).2 (Or.inl ⟨rfl, rfl⟩)), fun c hc => hnot c ((hlive _ c).2 hc), bs', hrep',
    kmalloc_coalesced hp hrep hbs heq hrep', fun q c => ?_⟩
  rw [hlive', hlive, Set.mem_insert_iff, Prod.mk.injEq]

/-- A block is given back. -/
theorem kfree (hp : Placed start) (h : Holding m start (insert (p, b) L))
    (hfresh : ∀ c, (p, c) ∉ L) : Holding (kfree p m) start L := by
  obtain ⟨bs, hrep, hbs, hlive⟩ := h
  have hb : Live start bs p b := (hlive p b).2 (Set.mem_insert _ _)
  obtain ⟨bs', hrep', -, hlive'⟩ := kfree_live hp hrep hb
  refine ⟨bs', hrep', ?_, fun q c => ?_⟩
  · obtain ⟨xs, ys, rfl, rfl⟩ := hb.1.exists_split
    obtain ⟨cs, hfreed, hrep'', -⟩ := kfree_spec hp hrep
    rw [hrep'.unique hrep'']
    exact Coalesced.freed hfreed hbs
  · rw [hlive', hlive, Set.mem_insert_iff, Prod.mk.injEq]
    constructor
    · rintro ⟨⟨rfl, -⟩ | hmem, hne⟩
      · exact absurd rfl hne
      · exact hmem
    · intro hmem
      refine ⟨Or.inr hmem, ?_⟩
      rintro rfl
      exact hfresh c hmem

end Holding

/-- Neighbouring free blocks are one, so that small ones do not add up. -/
theorem Coalesced.total_le (h : Coalesced bs) (hfree : ∀ b ∈ bs, b.free = true)
    (hsmall : ∀ b ∈ bs, ¬ Fits n b) : total bs ≤ 16 + n := by
  cases bs with
  | nil => exact Nat.zero_le _
  | cons b bs =>
      cases bs with
      | nil =>
          have hb : b.size < n :=
            Nat.lt_of_not_le fun hle => hsmall b (by simp) ⟨hfree b (by simp), hle⟩
          rw [total_cons, total_nil]
          omega
      | cons c bs =>
          rcases (List.isChain_cons_cons.1 h).1 with hb | hc
          · exact absurd (hfree b (by simp)) (by simp [hb])
          · exact absurd (hfree c (by simp)) (by simp [hc])

/-- With at most one block in use, `kmalloc` succeeds: the blocks around it are large. -/
theorem Holding.kmalloc_ne_null (hp : Placed start) (h : Holding m start L) {s : ℕ}
    (hone : L.Subsingleton) (hsize : ∀ q c, (q, c) ∈ L → c.size ≤ s)
    (hroom : 2 * n + s + 48 < kheapFixedSize) : Kheap.kmalloc start n m ≠ some (0, m) := by
  obtain ⟨bs, hrep, hbs, hlive⟩ := h
  intro hnull
  have hsmall : ∀ b ∈ bs, ¬ Fits n b := fun b hb hfit =>
    (kmalloc_null_iff hp hrep).1 hnull ⟨b, hb, hfit⟩
  have htotal := hrep.total
  by_cases hfree : ∀ b ∈ bs, b.free = true
  · have hle := hbs.total_le hfree hsmall
    omega
  · push Not at hfree
    obtain ⟨b, hb, hused⟩ := hfree
    rw [Ne, Bool.not_eq_true] at hused
    obtain ⟨xs, ys, rfl⟩ := List.append_of_mem hb
    have hmem := (hlive _ _).1 ⟨at_middle start xs ys b, hused⟩
    -- another used block would be at another address
    have hother {q : ℕ} {c : Block} (hat : At start (xs ++ b :: ys) q c) (hc : c.free = false) :
        q = start + total xs + 16 :=
      (Prod.mk.inj (hone ((hlive q c).1 ⟨hat, hc⟩) hmem)).1
    have hxs : ∀ c ∈ xs, c.free = true := by
      intro c hc
      rw [← Bool.not_eq_false]
      intro hcused
      obtain ⟨ys', zs, rfl⟩ := List.append_of_mem hc
      have hat : At start (ys' ++ c :: zs) (start + total ys' + 16) c := at_middle _ _ _ _
      have heq := hother (at_append.2 (Or.inl hat)) hcused
      rw [total_append, total_cons] at heq
      omega
    have hys : ∀ c ∈ ys, c.free = true := by
      intro c hc
      rw [← Bool.not_eq_false]
      intro hcused
      obtain ⟨ys', zs, rfl⟩ := List.append_of_mem hc
      have hat := at_middle start (xs ++ b :: ys') zs c
      rw [List.append_assoc, List.cons_append] at hat
      have heq := hother hat hcused
      rw [total_append, total_cons] at heq
      omega
    have hleft : Coalesced xs := (List.isChain_append.1 hbs).1
    have hright : Coalesced ys := (List.isChain_append.1 hbs).2.1.tail
    have hxs' := hleft.total_le hxs fun c hc => hsmall c (by simp [hc])
    have hys' := hright.total_le hys fun c hc => hsmall c (by simp [hc])
    have hbsize := hsize _ _ hmem
    rw [total_append, total_cons] at htotal
    omega

end Kheap

end Yotos
