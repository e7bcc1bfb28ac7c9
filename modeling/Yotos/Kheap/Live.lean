import Yotos.Kheap.Coalesce

/-!
# The live blocks

A call that takes a block and gives it back leaves the same used blocks at the same
addresses, and a heap that has room for the block again.
-/

namespace Yotos

namespace Kheap

open Bytes

variable {m m' : Bytes} {start n p q : ℕ} {bs bs' : List Block} {b c : Block}

/-- The payload at `q` is that of a used block `c`. -/
def Live (start : ℕ) (bs : List Block) (q : ℕ) (c : Block) : Prop := At start bs q c ∧ c.free = false

/-- Some free block is large enough. -/
def Room (n : ℕ) (bs : List Block) : Prop := ∃ b ∈ bs, Fits n b

/-- The two heaps have the same live blocks. -/
def SameLive (start : ℕ) (bs bs' : List Block) : Prop :=
  ∀ q c, Live start bs' q c ↔ Live start bs q c

theorem SameLive.refl (start : ℕ) (bs : List Block) : SameLive start bs bs := fun _ _ => Iff.rfl

theorem SameLive.trans {cs : List Block} (h : SameLive start bs bs') (h' : SameLive start bs' cs) :
    SameLive start bs cs := fun q c => (h' q c).trans (h q c)

theorem Live.unique (h : Live start bs q b) (h' : Live start bs q c) : b = c := by
  rcases h.1.apart h'.1 with ⟨-, heq⟩ | hlt | hlt
  · exact heq
  · omega
  · omega

/-- Room is what `kmalloc` looks for. -/
theorem kmalloc_null_iff (hp : Placed start) (h : Represents m start bs) :
    kmalloc start n m = some (0, m) ↔ ¬ Room n bs := by
  rcases kmalloc_spec n hp h with ⟨hno, heq⟩ | ⟨xs, b, ys, m', rfl, -, hfit, heq, -⟩
  · exact iff_of_true heq fun ⟨b, hmem, hfit⟩ => hno b hmem hfit
  · rw [heq]
    refine iff_of_false (fun hnull => ?_) fun hno => hno ⟨b, by simp, hfit⟩
    have := (Prod.mk.inj (Option.some.inj hnull)).1
    omega

/-- A block that `kmalloc` returns is one more live block. -/
theorem kmalloc_live (hp : Placed start) (h : Represents m start bs)
    (heq : kmalloc start n m = some (p, m')) (hne : p ≠ 0) :
    ∃ bs' b, Represents m' start bs' ∧ n ≤ b.size ∧ (∀ c, ¬ Live start bs p c) ∧
      ∀ q c, Live start bs' q c ↔ (q = p ∧ c = b) ∨ Live start bs q c := by
  rcases kmalloc_spec n hp h with ⟨-, hnull⟩ | ⟨xs, b, ys, m₁, rfl, -, hfit, hsome, hrep, -⟩
  · rw [hnull] at heq
    exact absurd (Prod.mk.inj (Option.some.inj heq)).1.symm hne
  rw [hsome] at heq
  obtain ⟨rfl, rfl⟩ := Prod.mk.inj (Option.some.inj heq)
  obtain ⟨bs', hrep', hkeep, hnew⟩ := kmalloc_keeps hp h hsome
  obtain rfl := hrep.unique hrep'
  obtain ⟨blk, hat, hused, hsize⟩ := hnew hne
  have hnot : ∀ c, ¬ Live start (xs ++ b :: ys) (start + total xs + 16) c := by
    rintro c ⟨hc, hcused⟩
    exact (hkeep _ c hc hcused).2.1 rfl
  refine ⟨_, blk, hrep, hsize, hnot, fun q c => ⟨fun hlive => ?_, ?_⟩⟩
  · rcases hlive.1.of_carve hlive.2 with rfl | hold
    · exact Or.inl ⟨rfl, hlive.unique ⟨hat, hused⟩⟩
    · exact Or.inr ⟨hold, hlive.2⟩
  · rintro (⟨rfl, rfl⟩ | hlive)
    · exact ⟨hat, hused⟩
    · exact ⟨(hkeep q c hlive.1 hlive.2).1, hlive.2⟩

/-- The freed block, or one that it was joined to, is free. -/
theorem Freed.room {xs ys : List Block} (h : Freed b xs ys bs) (hn : n ≤ b.size) : Room n bs := by
  have hhead : ∀ e zs, joinNext ⟨b.size, true⟩ ys = e :: zs → e.free = true ∧ b.size ≤ e.size := by
    intro e zs he
    cases ys with
    | nil =>
        obtain ⟨rfl, -⟩ := List.cons.inj he
        exact ⟨rfl, le_rfl⟩
    | cons c ys =>
        cases hc : c.free with
        | false =>
            rw [joinNext_of_used hc] at he
            obtain ⟨rfl, -⟩ := List.cons.inj he
            exact ⟨rfl, le_rfl⟩
        | true =>
            rw [joinNext_of_free hc] at he
            obtain ⟨rfl, -⟩ := List.cons.inj he
            exact ⟨rfl, by
              dsimp only
              omega⟩
  cases h with
  | alone _ _ _ =>
      obtain ⟨e, zs, he⟩ := joinNext_eq_cons ⟨b.size, true⟩ ys
      obtain ⟨hfree, hle⟩ := hhead e zs he
      exact ⟨e, by simp [he], hfree, by omega⟩
  | joined _ _ zs d e hd he =>
      obtain ⟨-, hle⟩ := hhead e zs he
      exact ⟨_, List.mem_append_right _ List.mem_cons_self, rfl, by
        dsimp only
        omega⟩

/-- A block that is freed is one live block less, and there is room for it again. -/
theorem kfree_live (hp : Placed start) (h : Represents m start bs) (hb : Live start bs p b) :
    ∃ bs', Represents (kfree p m) start bs' ∧ (∀ n ≤ b.size, Room n bs') ∧
      ∀ q c, Live start bs' q c ↔ Live start bs q c ∧ q ≠ p := by
  obtain ⟨xs, ys, rfl, rfl⟩ := hb.1.exists_split
  obtain ⟨cs, hfreed, hrep, hkeep⟩ := kfree_spec hp h
  refine ⟨cs, hrep, fun n hn => hfreed.room hn, fun q c => ⟨fun hlive => ?_, ?_⟩⟩
  · obtain ⟨hold, hne⟩ := hlive.1.of_freed hfreed hlive.2
    exact ⟨⟨hold, hlive.2⟩, hne⟩
  · rintro ⟨hlive, hne⟩
    exact ⟨(hkeep q c hlive.1 hlive.2 hne).1, hlive.2⟩

/-- A buffer that is taken and given back. -/
theorem kmalloc_kfree (hp : Placed start) (h : Represents m start bs)
    (heq : kmalloc start n m = some (p, m')) (hne : p ≠ 0) :
    ∃ bs', Represents (kfree p m') start bs' ∧ Room n bs' ∧ SameLive start bs bs' := by
  obtain ⟨cs, b, hrep, hsize, hnot, hlive⟩ := kmalloc_live hp h heq hne
  obtain ⟨bs', hrep', hroom, hlive'⟩ := kfree_live hp hrep ((hlive p b).2 (Or.inl ⟨rfl, rfl⟩))
  refine ⟨bs', hrep', hroom n hsize, fun q c => ?_⟩
  rw [hlive', hlive]
  constructor
  · rintro ⟨⟨rfl, -⟩ | hold, hqp⟩
    · exact absurd rfl hqp
    · exact hold
  · intro hold
    refine ⟨Or.inr hold, ?_⟩
    rintro rfl
    exact hnot c hold

end Kheap

end Yotos
