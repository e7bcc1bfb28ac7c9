import Yotos.Snake.Keys
import Mathlib.Data.List.Chain
import Mathlib.Data.List.Nodup
import Mathlib.Algebra.Group.Nat.Defs

/-!
# The body and the food

The body as a list of cells, the head first. A tick puts the new head in front and, unless
the snake grows, takes the last cell off. The head may enter the cell that the tail
leaves; where the snake grows, the food was on no cell of the body.
-/

namespace Yotos

namespace Snake

open Library

/-- The body, the head first. -/
def cells (s : Snake) : List Pt := front s.slen s.snake

/-- The cells inside the border. -/
def InPlay (p : Pt) : Prop := px ≤ p.x ∧ p.x < px + pw ∧ py ≤ p.y ∧ p.y < py + ph

/-- Neighbours in a row or in a column. -/
def Adjacent (p q : Pt) : Prop := (p.x - q.x).natAbs + (p.y - q.y).natAbs = 1

/-- The body is a path of distinct cells of the play area, and the food is beside it. -/
structure WellPlaced (s : Snake) : Prop where
  inPlay : ∀ c ∈ cells s, InPlay c
  nodup : (cells s).Nodup
  chain : (cells s).IsChain Adjacent
  food_inPlay : InPlay s.food
  food_off : s.food ∉ cells s

/-- What holds before every tick: the direction is that of the last move, from the second
cell to the head. -/
structure Inv (s : Snake) : Prop extends WellPlaced s where
  three_le : 3 ≤ s.slen
  le_maxLen : s.slen ≤ maxLen
  isDir : IsDir (heading s)
  head_eq : s.snake 0 = ⟨(s.snake 1).x + s.dx, (s.snake 1).y + s.dy⟩

/-- The snake grows. -/
def Grows (s : Snake) : Prop := newHead s = s.food ∧ s.slen < maxLen

instance (s : Snake) : Decidable (Grows s) := inferInstanceAs (Decidable (_ ∧ _))

variable {s t d : Snake} {snake : ℕ → Pt} {keys : List UInt8} {draws rest : List UInt32}
  {vga : ℤ → UInt16} {slen i : ℕ} {c food v : Pt}

theorem not_hitsWall_iff : ¬ hitsWall c ↔ InPlay c := by
  simp only [hitsWall, InPlay, not_or, Int.not_lt, Int.not_le]

@[simp] theorem cells_withHeading (s : Snake) (v : Pt) : cells (withHeading s v) = cells s := rfl

theorem WellPlaced.withHeading (h : WellPlaced s) (v : Pt) : WellPlaced (withHeading s v) where
  inPlay := h.inPlay
  nodup := h.nodup
  chain := h.chain
  food_inPlay := h.food_inPlay
  food_off := h.food_off

/-- Reading the keys moves nothing. -/
theorem WellPlaced.drain (h : WellPlaced s) (hd : drain keys s = some d) : WellPlaced d := by
  obtain ⟨-, rfl⟩ := drain_eq_some.1 hd
  exact h.withHeading _

theorem slen_of_drain (hd : drain keys s = some d) : d.slen = s.slen := by
  obtain ⟨-, rfl⟩ := drain_eq_some.1 hd
  rfl

theorem score_of_drain (hd : drain keys s = some d) : d.score = s.score := by
  obtain ⟨-, rfl⟩ := drain_eq_some.1 hd
  rfl

theorem WellPlaced.gameOver (h : WellPlaced s) : WellPlaced (gameOver s) where
  inPlay := h.inPlay
  nodup := h.nodup
  chain := h.chain
  food_inPlay := h.food_inPlay
  food_off := h.food_off

/-! ### The food -/

theorem inPlay_drawnCell (r r' : UInt32) : InPlay (drawnCell r r') := by
  have hx : (r % pw.toNat.toUInt32).toNat < 78 := by
    rw [UInt32.toNat_mod]
    exact Nat.mod_lt _ (by decide)
  have hy : (r' % ph.toNat.toUInt32).toNat < 21 := by
    rw [UInt32.toNat_mod]
    exact Nat.mod_lt _ (by decide)
  simp only [InPlay, drawnCell, px, py, pw, ph] at hx hy ⊢
  omega

/-- The food is placed in the play area and beside the body. -/
theorem placeFood_spec (h : placeFood snake slen draws = some (food, rest)) :
    InPlay food ∧ food ∉ front slen snake := by
  fun_induction placeFood snake slen draws with
  | case1 r r' draws hon ih => exact ih h
  | case2 r r' draws hoff =>
      simp only [Option.some.injEq, Prod.mk.injEq] at h
      obtain ⟨rfl, -⟩ := h
      exact ⟨inPlay_drawnCell r r', fun hmem => hoff (mem_front.1 hmem)⟩
  | case3 draws hdraws => simp at h

/-! ### One tick -/

theorem slen_advance (s : Snake) :
    (advance s).slen = if Grows s then s.slen + 1 else s.slen := rfl

/-- The new head in front of the old body, without the last cell unless the snake
grows. -/
theorem cells_advance (h : 0 < s.slen) :
    cells (advance s) = newHead s :: if Grows s then cells s else (cells s).dropLast := by
  obtain ⟨n, hn⟩ : ∃ n, (advance s).slen = n + 1 := by
    refine ⟨(advance s).slen - 1, ?_⟩
    rw [slen_advance]
    split_ifs <;> omega
  have hbody : cells (advance s) = newHead s :: front n s.snake := by
    rw [cells, hn, ← front_update_shift]
    congr 1
    change Function.update (shift ((advance s).slen - 1) s.snake) 0 (newHead s) = _
    rw [hn, Nat.add_sub_cancel]
  rw [slen_advance] at hn
  rw [hbody]
  congr 1
  split_ifs at hn ⊢
  · rw [cells]
    congr 1
    omega
  · rw [cells, dropLast_front]
    congr 1
    omega

theorem feed_eq_some : feed s = some t ↔
    ∃ food rest, placeFood s.snake s.slen s.draws = some (food, rest) ∧
      t = { s with
        food, draws := rest
        score := s.score + 1
        speed := if 60 < s.speed then s.speed - 4 else s.speed
        vga := vput food.x food.y '*'.toUInt8 red (vnum 9 1 (s.score + 1) white s.vga) } := by
  simp only [feed, Option.map_eq_some_iff, Prod.exists]
  constructor
  · rintro ⟨food, rest, hplace, rfl⟩
    exact ⟨food, rest, hplace, rfl⟩
  · rintro ⟨food, rest, hplace, rfl⟩
    exact ⟨food, rest, hplace, rfl⟩

theorem hitsSelf_iff : hitsSelf s ↔ newHead s ∈ (cells s).dropLast := by
  rw [cells, dropLast_front, mem_front, hitsSelf]

/-- A completed tick: the keys are read, the new head is free, and it has met the food or
has not. -/
theorem step_eq_some : step s keys = some t ↔
    ∃ d, drain keys s = some d ∧ InPlay (newHead d) ∧ newHead d ∉ (cells d).dropLast ∧
      if newHead d = d.food then feed (advance d) = some t else advance d = t := by
  rw [step, tick]
  cases hdrain : drain keys s with
  | none => simp
  | some d =>
      simp only [Option.some.injEq, exists_eq_left', ← hitsSelf_iff, ← not_hitsWall_iff]
      by_cases hwall : hitsWall (newHead d)
      · simp [hwall]
      by_cases hself : hitsSelf d
      · simp [hself]
      rw [if_neg (not_or.2 ⟨hwall, hself⟩)]
      by_cases hate : newHead d = d.food
      · rw [if_pos hate, if_pos hate]
        cases hfeed : feed (advance d) <;> simp [hwall, hself]
      · simp [hwall, hself, hate]

/-- The state in which the game is over has the body that the last tick found. -/
theorem tick_eq_over : tick s keys = some (.over t) ↔
    ∃ d, drain keys s = some d ∧ (hitsWall (newHead d) ∨ hitsSelf d) ∧ t = gameOver d := by
  rw [tick]
  cases hdrain : drain keys s with
  | none => simp
  | some d =>
      simp only [Option.some.injEq, exists_eq_left']
      by_cases hdead : hitsWall (newHead d) ∨ hitsSelf d
      · simp [hdead, eq_comm]
      rw [if_neg hdead]
      by_cases hate : newHead d = d.food
      · rw [if_pos hate]
        cases hfeed : feed (advance d) <;> simp [hdead]
      · simp [hdead, hate]

theorem adjacent_newHead (h : IsDir (heading s)) : Adjacent (newHead s) (s.snake 0) := by
  simp only [IsDir, heading] at h
  simp only [Adjacent, newHead]
  omega

/-- The body stays a path of distinct cells. -/
theorem path_advance (h : WellPlaced s) (hlen : 0 < s.slen) (hdir : IsDir (heading s))
    (hplay : InPlay (newHead s)) (hself : newHead s ∉ (cells s).dropLast) :
    (∀ c ∈ cells (advance s), InPlay c) ∧ (cells (advance s)).Nodup ∧
      (cells (advance s)).IsChain Adjacent := by
  have hadj := adjacent_newHead hdir
  have hhead : ∀ l : List Pt, l <+: cells s → ∀ c ∈ l.head?, Adjacent (newHead s) c := by
    rintro l ⟨l', hl⟩ c hc
    have hfirst : (cells s).head? = some c := by
      rw [← hl, List.head?_append, Option.mem_def.1 hc, Option.some_or]
    rw [cells, head?_front hlen, Option.some.injEq] at hfirst
    rw [← hfirst]
    exact hadj
  rw [cells_advance hlen]
  split_ifs with hgrows
  · refine ⟨?_, ?_, ?_⟩
    · rw [List.forall_mem_cons]
      exact ⟨hplay, h.inPlay⟩
    · rw [List.nodup_cons, hgrows.1]
      exact ⟨h.food_off, h.nodup⟩
    · rw [List.isChain_cons]
      exact ⟨hhead _ (List.prefix_refl _), h.chain⟩
  · have hinit := List.dropLast_prefix (cells s)
    refine ⟨?_, ?_, ?_⟩
    · rw [List.forall_mem_cons]
      exact ⟨hplay, fun c hc => h.inPlay c (hinit.subset hc)⟩
    · rw [List.nodup_cons]
      exact ⟨hself, h.nodup.sublist hinit.sublist⟩
    · rw [List.isChain_cons]
      exact ⟨hhead _ hinit, h.chain.prefix hinit⟩

theorem advance_snake_zero (s : Snake) : (advance s).snake 0 = newHead s :=
  Function.update_self 0 (newHead s) (shift ((advance s).slen - 1) s.snake)

/-- Each later cell of the body is where the one before it was. -/
theorem advance_snake_succ (h : i + 1 < (advance s).slen) :
    (advance s).snake (i + 1) = s.snake i := by
  have hlen : i + 1 ≤ (advance s).slen - 1 := by omega
  change Function.update (shift ((advance s).slen - 1) s.snake) 0 (newHead s) (i + 1) = _
  rw [Function.update_of_ne (Nat.succ_ne_zero i), shift_apply, if_pos ⟨Nat.succ_pos i, hlen⟩]
  rfl

/-- A state with the body that has moved, and food beside it. -/
theorem inv_of_advance (h : WellPlaced d) (hthree : 3 ≤ d.slen) (hmax : d.slen ≤ maxLen)
    (hdir : IsDir (heading d)) (hplay : InPlay (newHead d))
    (hself : newHead d ∉ (cells d).dropLast) (hsnake : t.snake = (advance d).snake)
    (hslen : t.slen = (advance d).slen) (hheading : heading t = heading d)
    (hfood : InPlay t.food) (hoff : t.food ∉ cells (advance d)) : Inv t := by
  obtain ⟨hinPlay, hnodup, hchain⟩ := path_advance h (by omega) hdir hplay hself
  have hcells : cells t = cells (advance d) := by rw [cells, cells, hsnake, hslen]
  have hlen := slen_advance d
  simp only [heading, Pt.mk.injEq] at hheading
  rw [← hcells] at hinPlay hnodup hchain hoff
  refine ⟨⟨hinPlay, hnodup, hchain, hfood, hoff⟩, ?_, ?_, ?_, ?_⟩
  · rw [hslen, hlen]
    split_ifs <;> omega
  · rw [hslen, hlen]
    split_ifs with hgrows
    · exact hgrows.2
    · exact hmax
  · rw [heading, hheading.1, hheading.2]
    exact hdir
  · have hsecond : 0 + 1 < (advance d).slen := by
      rw [hlen]
      split_ifs <;> omega
    rw [hsnake, advance_snake_zero, advance_snake_succ hsecond, hheading.1, hheading.2, newHead]

/-- Every completed tick keeps the invariant. -/
theorem Inv.step (h : Inv s) (hstep : step s keys = some t) : Inv t := by
  obtain ⟨d, hdrain, hplay, hself, hrest⟩ := step_eq_some.1 hstep
  have hdir := h.isDir.drain hdrain
  have hplaced := h.toWellPlaced.drain hdrain
  have hthree : 3 ≤ d.slen := slen_of_drain hdrain ▸ h.three_le
  have hmax : d.slen ≤ maxLen := slen_of_drain hdrain ▸ h.le_maxLen
  split_ifs at hrest with hate
  · obtain ⟨food, rest, hplace, rfl⟩ := feed_eq_some.1 hrest
    obtain ⟨hfood, hoff⟩ := placeFood_spec hplace
    exact inv_of_advance hplaced hthree hmax hdir hplay hself rfl rfl rfl hfood hoff
  · subst hrest
    apply inv_of_advance hplaced hthree hmax hdir hplay hself rfl rfl rfl hplaced.food_inPlay
    -- the head has not met the food, and the other cells are old ones
    have hnot : ¬ Grows d := fun hgrows => hate hgrows.1
    rw [cells_advance (by omega), if_neg hnot, List.mem_cons, not_or]
    exact ⟨Ne.symm hate, fun hmem => hplaced.food_off (List.dropLast_subset _ hmem)⟩

/-! ### Whole games -/

/-- The head meets the food in the tick. -/
def Eats (s : Snake) (keys : List UInt8) : Prop := ∃ d ∈ drain keys s, newHead d = d.food

instance (s : Snake) (keys : List UInt8) : Decidable (Eats s keys) :=
  inferInstanceAs (Decidable (∃ d ∈ drain keys s, newHead d = d.food))

/-- The foods that are eaten in the ticks. -/
def eaten : Snake → (ticks : List (List UInt8)) → ℕ
  | _, [] => 0
  | s, keys :: ticks =>
      (if Eats s keys then 1 else 0) + (step s keys).elim 0 fun t => eaten t ticks

/-- The state before a tick, or the state in which the game is over. -/
def Reaches (s : Snake) (ticks : List (List UInt8)) (u : Snake) : Prop :=
  ∃ t, run step s ticks = some t ∧ (u = t ∨ ∃ keys, tick t keys = some (.over u))

theorem step_counts (hstep : step s keys = some t) (hmax : s.slen ≤ maxLen) :
    t.slen = min (s.slen + if Eats s keys then 1 else 0) maxLen ∧
      t.score = s.score + if Eats s keys then 1 else 0 := by
  obtain ⟨d, hdrain, -, -, hrest⟩ := step_eq_some.1 hstep
  have heats : Eats s keys ↔ newHead d = d.food := by simp [Eats, hdrain]
  have hlen := slen_advance d
  rw [← slen_of_drain hdrain] at hmax ⊢
  rw [← score_of_drain hdrain]
  simp only [heats]
  split_ifs at hrest ⊢ with hate
  · obtain ⟨food, rest, -, rfl⟩ := feed_eq_some.1 hrest
    refine ⟨?_, rfl⟩
    change (advance d).slen = _
    rw [hlen]
    split_ifs with hgrows
    · rw [Nat.min_eq_left hgrows.2]
    · have hfull : ¬ d.slen < maxLen := fun hlt => hgrows ⟨hate, hlt⟩
      omega
  · have hnot : ¬ Grows d := fun hgrows => hate hgrows.1
    rw [if_neg hnot] at hlen
    subst hrest
    exact ⟨by omega, (UInt32.add_zero d.score).symm⟩

theorem Inv.run {ticks : List (List UInt8)} (h : Inv s)
    (hrun : run Snake.step s ticks = some t) :
    Inv t ∧ t.slen = min (s.slen + eaten s ticks) maxLen ∧
      t.score.toNat = (s.score.toNat + eaten s ticks) % 2 ^ 32 := by
  induction ticks generalizing s with
  | nil =>
      obtain rfl := Option.some.inj hrun
      have hmax := h.le_maxLen
      have hscore := s.score.toNat_lt
      simp only [eaten]
      exact ⟨h, by omega, by omega⟩
  | cons keys ticks ih =>
      obtain ⟨u, hu, hrun⟩ := run_cons_eq_some.1 hrun
      obtain ⟨ht, hslen, hscore⟩ := ih (h.step hu) hrun
      obtain ⟨hslen', hscore'⟩ := step_counts hu h.le_maxLen
      have heaten : eaten s (keys :: ticks) = (if Eats s keys then 1 else 0) + eaten u ticks := by
        rw [eaten, hu, Option.elim_some]
      rw [hslen, hscore, hslen', hscore', heaten, UInt32.toNat_add]
      refine ⟨ht, ?_, ?_⟩
      · split_ifs <;> omega
      · split_ifs <;> simp only [UInt32.toNat_ofNat] <;> omega

theorem cells_of_start (h : start vga draws = some s) :
    cells s = [⟨40, 12⟩, ⟨39, 12⟩, ⟨38, 12⟩] := by
  simp only [start, Option.map_eq_some_iff, Prod.exists] at h
  obtain ⟨food, rest, -, rfl⟩ := h
  rfl

/-- The game begins with three cells in the middle, heading right. -/
theorem inv_of_start (h : start vga draws = some s) : Inv s ∧ s.slen = 3 ∧ s.score = 0 := by
  have hcells := cells_of_start h
  simp only [start, Option.map_eq_some_iff, Prod.exists] at h
  obtain ⟨food, rest, hplace, rfl⟩ := h
  obtain ⟨hfood, hoff⟩ := placeFood_spec hplace
  refine ⟨⟨⟨?_, ?_, ?_, hfood, hoff⟩, ?_, ?_, ?_, rfl⟩, rfl, rfl⟩
  · rw [hcells]
    simp [InPlay, px, py, pw, ph]
  · rw [hcells]
    simp
  · rw [hcells]
    simp [Adjacent]
  · simp
  · simp [maxLen]
  · simp [heading, IsDir]

end Snake

end Yotos
