import Yotos.Library.Search
import Yotos.Snake.Growth

/-!
# The screen

The screen is drawn in steps beside the body: a tick clears the cell that the tail leaves
and draws the new head and the new food. The tail is not cleared when the snake eats,
because then it stays; but at its full length the snake eats and the tail moves on.
-/

namespace Yotos

namespace Snake

open Library

/-- The character that a cell shows. -/
def charAt (vga : ℤ → UInt16) (p : Pt) : UInt8 := (vga (p.y * vgaW + p.x)).toUInt8

/-- The play area shows the body, the food and nothing else. -/
def Drawn (s : Snake) : Prop := ∀ p, InPlay p →
  (charAt s.vga p = '#'.toUInt8 ↔ p ∈ cells s) ∧ (charAt s.vga p = '*'.toUInt8 ↔ p = s.food) ∧
    (p ∉ cells s → p ≠ s.food → charAt s.vga p = ' '.toUInt8)

/-- What a cell of the play area is to show. -/
def shown (s : Snake) (p : Pt) : UInt8 :=
  if p = s.food then '*'.toUInt8 else if p ∈ cells s then '#'.toUInt8 else ' '.toUInt8

/-- `old_tail`. -/
def oldTail (s : Snake) : Pt := s.snake (s.slen - 1)

/-- The cells that random numbers give. -/
def drawnCells : List UInt32 → List Pt
  | r :: r' :: draws => drawnCell r r' :: drawnCells draws
  | _ => []

/-- If the snake eats at its full length, the first cell drawn that is not on the new body
is the one that the tail leaves. -/
def TailCovered (s : Snake) (keys : List UInt8) : Prop :=
  Eats s keys → s.slen = maxLen → ∀ f,
    (drawnCells s.draws).find? (fun c => c ∉ s.food :: (cells s).dropLast) = some f →
      f = oldTail s

variable {s t d : Snake} {keys : List UInt8} {vga : ℤ → UInt16} {draws rest : List UInt32}
  {snake : ℕ → Pt} {slen : ℕ} {p food : Pt} {x y : ℤ} {c col : UInt8}

theorem drawn_iff (h : WellPlaced s) : Drawn s ↔ ∀ p, InPlay p → charAt s.vga p = shown s p := by
  have hash_ne_star : '#'.toUInt8 ≠ '*'.toUInt8 := by decide
  have hash_ne_blank : '#'.toUInt8 ≠ ' '.toUInt8 := by decide
  have star_ne_blank : '*'.toUInt8 ≠ ' '.toUInt8 := by decide
  apply forall_congr'
  intro p
  apply imp_congr_right
  intro hp
  have hoff : p ∈ cells s → p ≠ s.food := fun hbody heq => h.food_off (heq ▸ hbody)
  unfold shown
  split_ifs with hbody hfood <;> grind

/-! ### Writing to the screen -/

@[simp] theorem toUInt8_vgaCell (c col : UInt8) : (vgaCell c col).toUInt8 = c := by
  apply UInt8.toBitVec_inj.1
  ext i hi
  simp [vgaCell]

theorem charAt_vput (hp : InPlay p) (hx : 0 ≤ x) (hx' : x < vgaW) (y : ℤ) (c col : UInt8)
    (vga : ℤ → UInt16) : charAt (vput x y c col vga) p = if p = ⟨x, y⟩ then c else charAt vga p := by
  have hindex : p.y * vgaW + p.x = y * vgaW + x ↔ p = ⟨x, y⟩ := by
    obtain ⟨px, py⟩ := p
    obtain ⟨hpx, hpx', -, -⟩ := hp
    simp only [vgaW, Pt.mk.injEq, Snake.px, pw] at *
    omega
  unfold charAt vput
  by_cases heq : p = ⟨x, y⟩
  · rw [if_pos heq, hindex.2 heq, Function.update_self, toUInt8_vgaCell]
  · rw [if_neg heq, Function.update_of_ne (mt hindex.1 heq)]

theorem charAt_vput_of_ne (hp : InPlay p) (hx : 0 ≤ x) (hx' : x < vgaW) (hne : p ≠ ⟨x, y⟩)
    (c col : UInt8) (vga : ℤ → UInt16) : charAt (vput x y c col vga) p = charAt vga p := by
  rw [charAt_vput hp hx hx', if_neg hne]

theorem charAt_vput_inPlay {q : Pt} (hp : InPlay p) (hq : InPlay q) (c col : UInt8)
    (vga : ℤ → UInt16) : charAt (vput q.x q.y c col vga) p = if p = q then c else charAt vga p := by
  obtain ⟨hx, hx', -, -⟩ := hq
  simp only [px, pw] at hx hx'
  exact charAt_vput hp (by omega) (by simp only [vgaW]; omega) ..

/-- A text in another row leaves the cell alone. -/
theorem charAt_vstr (hp : InPlay p) (hy : p.y ≠ y) {text : List UInt8} (hx : 0 ≤ x)
    (hx' : x + text.length ≤ vgaW) (col : UInt8) (vga : ℤ → UInt16) :
    charAt (vstr x y text col vga) p = charAt vga p := by
  induction text generalizing x vga with
  | nil => rfl
  | cons c text ih =>
      rw [List.length_cons, Nat.cast_succ] at hx'
      rw [vstr, ih (by omega) (by omega), charAt_vput_of_ne hp hx (by omega)]
      exact fun heq => hy (congrArg Pt.y heq)

theorem length_vnumDigits (i : ℕ) (n : UInt32) (buf : List UInt8) :
    (vnumDigits i n buf).length ≤ i + buf.length := by
  induction i generalizing n buf with
  | zero => simp [vnumDigits]
  | succ i ih =>
      rw [vnumDigits]
      split_ifs
      · omega
      · have hlen := ih (n / 10) (('0'.toUInt8 + (n % 10).toUInt8) :: buf)
        rw [List.length_cons] at hlen
        omega

theorem charAt_vnum (hp : InPlay p) (hy : p.y ≠ y) (hx : 0 ≤ x) (hx' : x + 5 ≤ vgaW) (n : UInt32)
    (col : UInt8) (vga : ℤ → UInt16) : charAt (vnum x y n col vga) p = charAt vga p := by
  have hlen := length_vnumDigits 5 n []
  apply charAt_vstr hp hy hx
  rw [List.length_append, List.length_replicate]
  split_ifs <;> simp at hlen ⊢ <;> omega

theorem charAt_vclear (hp : InPlay p) : charAt (vclear vga) p = ' '.toUInt8 := by
  have hclear : ∀ n, ∀ i < n, ((List.range n).foldl (fun (vga : ℤ → UInt16) (i : ℕ) =>
      Function.update vga i (vgaCell ' '.toUInt8 white)) vga (i : ℕ)).toUInt8 = ' '.toUInt8 := by
    intro n
    apply foldl_range_invariant
      (fun k (t : ℤ → UInt16) => ∀ i < k, (t (i : ℕ)).toUInt8 = ' '.toUInt8)
    · simp
    · intro k hk t ht i hi
      rcases eq_or_ne i k with rfl | hne
      · rw [Function.update_self, toUInt8_vgaCell]
      · rw [Function.update_of_ne (mt Nat.cast_inj.1 hne)]
        exact ht i (by omega)
  obtain ⟨hx, hx', hy, hy'⟩ := hp
  simp only [px, py, pw, ph] at hx hx' hy hy'
  have hindex : ((p.y * vgaW + p.x).toNat : ℤ) = p.y * vgaW + p.x := by
    simp only [vgaW]
    omega
  rw [charAt, vclear, ← hindex]
  apply hclear
  simp only [vgaW, vgaH]
  omega

theorem charAt_vput_outside (hp : InPlay p) (hx : 0 ≤ x) (hx' : x < vgaW) (hout : ¬ InPlay ⟨x, y⟩)
    (c col : UInt8) (vga : ℤ → UInt16) : charAt (vput x y c col vga) p = charAt vga p :=
  charAt_vput_of_ne hp hx hx' (fun heq => hout (heq ▸ hp)) c col vga

/-- The border is drawn outside the play area. -/
theorem charAt_drawBorder (hp : InPlay p) : charAt (drawBorder vga) p = charAt vga p := by
  have houtside : ∀ (x y : ℤ) (c : UInt8) (t : ℤ → UInt16), 0 ≤ x → x < vgaW →
      (x = px - 1 ∨ x = px + pw ∨ y = py - 1 ∨ y = py + ph) →
        charAt t p = charAt vga p → charAt (vput x y c cyan t) p = charAt vga p := by
    intro x y c t hx hx' hborder ht
    rw [charAt_vput_outside hp hx hx', ht]
    simp only [InPlay]
    omega
  have hleft : 0 ≤ px - 1 ∧ px - 1 < vgaW := by decide
  have hright : 0 ≤ px + pw ∧ px + pw < vgaW := by decide
  unfold drawBorder
  extract_lets vga₁ vga₂ vga₃ vga₄ vga₅
  have hrows : charAt vga₁ p = charAt vga p := by
    apply foldl_range_invariant (fun _ t => charAt t p = charAt vga p) rfl
    intro i hi t ht
    simp only [pw] at hi
    have hx : 0 ≤ px - 1 + i ∧ px - 1 + i < vgaW := by
      simp only [px, vgaW]
      omega
    apply houtside _ _ _ _ hx.1 hx.2 (by simp)
    exact houtside _ _ _ _ hx.1 hx.2 (by simp) ht
  have hcolumns : charAt vga₂ p = charAt vga p := by
    apply foldl_range_invariant (fun _ t => charAt t p = charAt vga p) hrows
    intro i hi t ht
    apply houtside _ _ _ _ hright.1 hright.2 (by simp)
    exact houtside _ _ _ _ hleft.1 hleft.2 (by simp) ht
  apply houtside _ _ _ _ hright.1 hright.2 (by simp)
  apply houtside _ _ _ _ hleft.1 hleft.2 (by simp)
  apply houtside _ _ _ _ hright.1 hright.2 (by simp)
  exact houtside _ _ _ _ hleft.1 hleft.2 (by simp) hcolumns

/-! ### The screen beside the body -/

theorem ne_row (hp : InPlay p) (hy : y < py) : p.y ≠ y := by
  obtain ⟨-, -, hpy, -⟩ := hp
  omega

/-- The loop that draws the first snake. -/
theorem charAt_drawCells (hp : InPlay p) (n : ℕ) (h : ∀ c ∈ front n snake, InPlay c)
    (vga : ℤ → UInt16) :
    charAt ((List.range n).foldl
      (fun vga i => vput (snake i).x (snake i).y '#'.toUInt8 green vga) vga) p =
        if p ∈ front n snake then '#'.toUInt8 else charAt vga p := by
  apply foldl_range_invariant (fun k t =>
    charAt t p = if p ∈ front k snake then '#'.toUInt8 else charAt vga p)
  · simp [front]
  · intro k hk t ht
    rw [charAt_vput_inPlay hp (h _ (mem_front.2 ⟨k, hk, rfl⟩)), ht, front_succ]
    by_cases hlast : p = snake k
    · simp [hlast]
    · simp [hlast]

/-- The first screen shows the first snake. -/
theorem drawn_of_start (h : start vga draws = some s) : Drawn s := by
  have hplaced := (inv_of_start h).1.toWellPlaced
  rw [drawn_iff hplaced]
  intro p hp
  simp only [start, Option.map_eq_some_iff, Prod.exists] at h
  obtain ⟨food, rest, hplace, rfl⟩ := h
  dsimp only
  rw [charAt_vnum hp (ne_row hp (by decide)) (by decide) (by decide),
    charAt_vput_inPlay hp hplaced.food_inPlay, charAt_drawCells hp 3 hplaced.inPlay,
    charAt_drawBorder hp, charAt_vstr hp (ne_row hp (by decide)) (by decide) (by decide),
    charAt_vstr hp (ne_row hp (by decide)) (by decide) (by decide),
    charAt_vstr hp (ne_row hp (by decide)) (by decide) (by decide), charAt_vclear hp]
  rfl

/-- Reading the keys draws nothing. -/
theorem Drawn.drain (h : Drawn s) (hd : drain keys s = some d) : Drawn d := by
  obtain ⟨-, rfl⟩ := drain_eq_some.1 hd
  exact h

theorem cells_eq_concat (h : 0 < s.slen) : cells s = (cells s).dropLast ++ [oldTail s] := by
  obtain ⟨n, hn⟩ : ∃ n, s.slen = n + 1 := ⟨s.slen - 1, by omega⟩
  rw [cells, dropLast_front, oldTail, hn, Nat.add_sub_cancel, front_succ]

theorem mem_cells_iff (h : 0 < s.slen) :
    p ∈ cells s ↔ p ∈ (cells s).dropLast ∨ p = oldTail s := by
  conv_lhs => rw [cells_eq_concat h, List.mem_append, List.mem_singleton]

theorem oldTail_notMem (h : 0 < s.slen) (hnodup : (cells s).Nodup) :
    oldTail s ∉ (cells s).dropLast := by
  rw [cells_eq_concat h, List.nodup_append] at hnodup
  intro hmem
  exact hnodup.2.2 _ hmem _ (List.mem_singleton_self _) rfl

/-- What the new head and the old tail leave on the screen. -/
theorem charAt_advance (hp : InPlay p) (hplay : InPlay (newHead s)) (htail : InPlay (oldTail s)) :
    charAt (advance s).vga p =
      if p = newHead s then '#'.toUInt8
      else if newHead s ≠ s.food ∧ p = oldTail s then ' '.toUInt8 else charAt s.vga p := by
  change charAt (vput (newHead s).x (newHead s).y '#'.toUInt8 green
    (if newHead s = s.food then s.vga
      else vput (oldTail s).x (oldTail s).y ' '.toUInt8 black s.vga)) p = _
  rw [charAt_vput_inPlay hp hplay]
  by_cases hate : newHead s = s.food
  · simp [hate]
  · simp [hate, charAt_vput_inPlay hp htail]

/-- A tick without food keeps the screen in step. -/
theorem Drawn.advance (h : Drawn s) (hplaced : WellPlaced s) (hlen : 0 < s.slen)
    (hplay : InPlay (newHead s)) (hate : newHead s ≠ s.food) (ht : WellPlaced (advance s)) :
    Drawn (advance s) := by
  rw [drawn_iff hplaced] at h
  rw [drawn_iff ht]
  intro p hp
  have hmem := mem_cells_iff (p := p) hlen
  have htail : oldTail s ∈ cells s := (mem_cells_iff hlen).2 (Or.inr rfl)
  have hgone := oldTail_notMem hlen hplaced.nodup
  have hnot : ¬ Grows s := fun hgrows => hate hgrows.1
  have hfood : oldTail s ≠ s.food := fun heq => hplaced.food_off (heq ▸ htail)
  rw [charAt_advance hp hplay (hplaced.inPlay _ htail), h p hp, shown, shown, cells_advance hlen,
    if_neg hnot]
  change _ = if p = s.food then _ else _
  simp only [List.mem_cons, hmem]
  by_cases hhead : p = newHead s
  · simp [hhead, hate]
  · by_cases hlast : p = oldTail s
    · subst hlast
      simp [hhead, hate, hgone, hfood]
    · simp [hlast, hhead]

/-- What a tick with food leaves on the screen. -/
theorem charAt_feed (hplaced : WellPlaced s) (hp : InPlay p) (hlen : 0 < s.slen)
    (hate : newHead s = s.food) (hfeed : feed (Snake.advance s) = some t) :
    charAt t.vga p = if p = t.food then '*'.toUInt8 else
      if p = newHead s then '#'.toUInt8 else charAt s.vga p := by
  have htail : oldTail s ∈ cells s := (mem_cells_iff hlen).2 (Or.inr rfl)
  have hplay : InPlay (newHead s) := hate ▸ hplaced.food_inPlay
  obtain ⟨food, rest, hplace, rfl⟩ := feed_eq_some.1 hfeed
  dsimp only
  rw [charAt_vput_inPlay hp (placeFood_spec hplace).1,
    charAt_vnum hp (ne_row hp (by decide)) (by decide) (by decide),
    charAt_advance hp hplay (hplaced.inPlay _ htail)]
  simp [hate]

/-- A tick with food keeps the screen in step unless the snake has its full length, and
then too if the new food covers the cell that the tail leaves. -/
theorem Drawn.feed_iff (h : Drawn s) (hplaced : WellPlaced s) (hlen : 0 < s.slen)
    (hate : newHead s = s.food) (hfeed : feed (Snake.advance s) = some t) (ht : WellPlaced t) :
    Drawn t ↔ (s.slen < maxLen ∨ t.food = oldTail s) := by
  have hcells : cells t =
      newHead s :: if Grows s then cells s else (cells s).dropLast := by
    obtain ⟨food, rest, hplace, rfl⟩ := feed_eq_some.1 hfeed
    exact cells_advance hlen
  have hoff := ht.food_off
  rw [drawn_iff hplaced] at h
  rw [drawn_iff ht]
  have hscreen : ∀ p, InPlay p → charAt t.vga p = if p = t.food then '*'.toUInt8 else
      if p = s.food then '#'.toUInt8 else if p ∈ cells s then '#'.toUInt8 else ' '.toUInt8 := by
    intro p hp
    rw [charAt_feed hplaced hp hlen hate hfeed, h p hp, shown, hate]
    split_ifs <;> rfl
  by_cases hgrows : Grows s
  · rw [if_pos hgrows, hate] at hcells
    refine iff_of_true ?_ (Or.inl hgrows.2)
    intro p hp
    rw [hscreen p hp, shown, hcells]
    by_cases hhead : p = s.food <;> simp [hhead]
  · have htail : oldTail s ∈ cells s := (mem_cells_iff hlen).2 (Or.inr rfl)
    have hgone := oldTail_notMem hlen hplaced.nodup
    have hfull : ¬ s.slen < maxLen := fun hlt => hgrows ⟨hate, hlt⟩
    have hne : oldTail s ≠ s.food := fun heq => hplaced.food_off (heq ▸ htail)
    rw [if_neg hgrows, hate] at hcells
    simp only [hfull, false_or]
    constructor
    · -- off the food, the old tail still shows a cell of the body
      intro hall
      by_contra hfood
      have hshown := hall (oldTail s) (hplaced.inPlay _ htail)
      rw [hscreen _ (hplaced.inPlay _ htail), shown, hcells] at hshown
      simp [Ne.symm hfood, hne, htail, hgone] at hshown
      exact absurd hshown (by decide)
    · intro hcovers p hp
      rw [hscreen p hp, shown, hcells]
      have hmem := mem_cells_iff (p := p) hlen
      by_cases hlast : p = oldTail s
      · simp [hlast, hcovers]
      · by_cases hhead : p = s.food <;> simp [hhead, hlast, hmem]

/-! ### Whole games -/

/-- `place_food` takes the first cell that is off the body. -/
theorem placeFood_map_fst (snake : ℕ → Pt) (slen : ℕ) (draws : List UInt32) :
    (placeFood snake slen draws).map Prod.fst =
      (drawnCells draws).find? fun c => c ∉ front slen snake := by
  fun_induction placeFood snake slen draws with
  | case1 r r' draws hon ih =>
      rw [drawnCells, ih, List.find?_cons_of_neg]
      simpa using mem_front.2 hon
  | case2 r r' draws hoff =>
      rw [drawnCells, List.find?_cons_of_pos, Option.map_some]
      simpa using mt mem_front.1 hoff
  | case3 draws hdraws =>
      rcases draws with _ | ⟨r, _ | ⟨r', draws⟩⟩
      · rfl
      · rfl
      · exact absurd rfl (hdraws r r' draws)

/-- At its full length the snake is fed on the first cell drawn off the new body. -/
theorem feed_food_iff (hlen : 0 < s.slen) (hfull : s.slen = maxLen) (hate : newHead s = s.food)
    (food : Pt) : (∃ t, feed (advance s) = some t ∧ t.food = food) ↔
      (drawnCells s.draws).find? (fun c => c ∉ s.food :: (cells s).dropLast) = some food := by
  have hnot : ¬ Grows s := fun hgrows => absurd hgrows.2 (by omega)
  have hcells := cells_advance hlen
  rw [if_neg hnot, hate, cells] at hcells
  rw [← hcells, ← placeFood_map_fst]
  constructor
  · rintro ⟨t, hfeed, rfl⟩
    obtain ⟨food, rest, hplace, rfl⟩ := feed_eq_some.1 hfeed
    exact Option.map_eq_some_iff.2 ⟨_, hplace, rfl⟩
  · intro hfind
    obtain ⟨⟨food, rest⟩, hplace, rfl⟩ := Option.map_eq_some_iff.1 hfind
    exact ⟨_, feed_eq_some.2 ⟨food, rest, hplace, rfl⟩, rfl⟩

/-- The condition on a tick whose keys have been read. -/
theorem tailCovered_iff (hd : drain keys s = some d) : TailCovered s keys ↔
    (newHead d = d.food → d.slen = maxLen → ∀ t, feed (advance d) = some t → t.food = oldTail d) := by
  have heats : Eats s keys ↔ newHead d = d.food := by simp [Eats, hd]
  have hpos : d.slen = maxLen → 0 < d.slen := by
    rintro hfull
    simp [hfull, maxLen]
  rw [TailCovered, heats, ← slen_of_drain hd]
  obtain ⟨-, rfl⟩ := drain_eq_some.1 hd
  constructor
  · intro h hate hfull t hfeed
    exact h hate hfull t.food ((feed_food_iff (hpos hfull) hfull hate t.food).1 ⟨t, hfeed, rfl⟩)
  · intro h hate hfull food hfind
    obtain ⟨t, hfeed, rfl⟩ := (feed_food_iff (hpos hfull) hfull hate food).2 hfind
    exact h hate hfull t hfeed

/-- A tick keeps the screen in step if and only if the tail does not move on while the
snake eats, or the food covers its cell. -/
theorem drawn_step_iff (h : Inv s) (hdrawn : Drawn s) :
    (∀ t, step s keys = some t → Drawn t) ↔ TailCovered s keys := by
  cases hdrain : drain keys s with
  | none => simp [step, tick, TailCovered, Eats, hdrain]
  | some d =>
      have hplaced := h.toWellPlaced.drain hdrain
      have hdrawn' := hdrawn.drain hdrain
      have hlen : 0 < d.slen := by
        have hthree := h.three_le
        rw [slen_of_drain hdrain]
        omega
      by_cases hate : newHead d = d.food
      · have hstep : ∀ t, step s keys = some t ↔ feed (advance d) = some t := by
          intro t
          rw [step_eq_some]
          simp only [hdrain, Option.some.injEq, exists_eq_left', hate, if_true]
          have hoff : d.food ∉ (cells d).dropLast :=
            fun hmem => hplaced.food_off (List.dropLast_subset _ hmem)
          rw [and_iff_right hplaced.food_inPlay, and_iff_right hoff]
        have hfed : ∀ t, feed (advance d) = some t →
            (Drawn t ↔ (d.slen < maxLen ∨ t.food = oldTail d)) := fun t hfeed =>
          hdrawn'.feed_iff hplaced hlen hate hfeed (h.step ((hstep t).2 hfeed)).toWellPlaced
        have hmax : d.slen ≤ maxLen := slen_of_drain hdrain ▸ h.le_maxLen
        rw [tailCovered_iff hdrain]
        constructor
        · intro hall _ hfull t hfeed
          have hcovers := (hfed t hfeed).1 (hall t ((hstep t).2 hfeed))
          exact hcovers.resolve_left (by omega)
        · intro hcovers t hstep'
          have hfeed := (hstep t).1 hstep'
          rw [hfed t hfeed]
          rcases Nat.lt_or_eq_of_le hmax with hlt | hfull
          · exact Or.inl hlt
          · exact Or.inr (hcovers hate hfull t hfeed)
      · refine iff_of_true ?_ ?_
        · intro t hstep
          have ht := (h.step hstep).toWellPlaced
          obtain ⟨d', hd', hplay, -, hrest⟩ := step_eq_some.1 hstep
          obtain rfl := Option.some.inj (hdrain.symm.trans hd')
          rw [if_neg hate] at hrest
          subst hrest
          exact hdrawn'.advance hplaced hlen hplay hate ht
        · rw [tailCovered_iff hdrain]
          exact fun hmeets => absurd hmeets hate

theorem inv_drawn_step (h : Inv s ∧ Drawn s) (hall : ∀ t, step s keys = some t → Drawn t)
    (hstep : step s keys = some t) : Inv t ∧ Drawn t :=
  ⟨h.1.step hstep, hall t hstep⟩

/-- In a game every completed tick leaves the play area showing the body and the food if
and only if no tick takes the tail on in eating, except under the new food. -/
theorem drawn_iff_tailCovered (vga : ℤ → UInt16) (draws : List UInt32)
    (ticks : List (List UInt8)) (s : Snake) (hstart : start vga draws = some s) :
    AllSteps step (fun s keys => ∀ t, step s keys = some t → Drawn t) s ticks ↔
      AllSteps step TailCovered s ticks :=
  allSteps_congr (fun _ _ _ => inv_drawn_step) (fun _ _ h => drawn_step_iff h.1 h.2)
    ⟨(inv_of_start hstart).1, drawn_of_start hstart⟩ ticks

theorem tailCovered_of_slen_ne (h : s.slen ≠ maxLen) : TailCovered s keys :=
  fun _ hfull => absurd hfull h

/-- The first food is drawn in front of the snake, which eats it and moves on. -/
theorem drawn_iff_tailCovered_eating :
    ∃ s, start (fun _ => 0) [40, 10, 0, 0] = some s ∧ Eats s [] ∧ (step s []).isSome = true ∧
      AllSteps step (fun s keys => ∀ t, step s keys = some t → Drawn t) s [[], []] := by
  obtain ⟨s, hstart, hate, hsome, hlen, hnext⟩ : ∃ s, start (fun _ => 0) [40, 10, 0, 0] = some s ∧
      Eats s [] ∧ (step s []).isSome = true ∧ s.slen = 3 ∧ ∀ t ∈ step s [], t.slen = 4 :=
    ⟨_, rfl, by decide +kernel, by decide +kernel, rfl, by decide +kernel⟩
  refine ⟨s, hstart, hate, hsome, (drawn_iff_tailCovered _ _ _ s hstart).2 ⟨?_, fun t ht => ⟨?_, ?_⟩⟩⟩
  · exact tailCovered_of_slen_ne (hlen ▸ by decide)
  · exact tailCovered_of_slen_ne (hnext t ht ▸ by decide)
  · exact fun _ _ => trivial

/-- Fed along the path up to its full length and once more, the snake leaves the cell of
its first tail drawn. -/
theorem not_drawn_of_fed :
    ¬ ∀ (vga : ℤ → UInt16) (draws : List UInt32) (ticks : List (List UInt8)) (s : Snake),
      start vga draws = some s →
        AllSteps step (fun s keys => ∀ t, step s keys = some t → Drawn t) s ticks := by
  intro hall
  obtain ⟨s, hstart, hs, hdraws⟩ := fed_start (fun _ => 0) 510
  obtain ⟨t, hrun, ht, hdraws'⟩ := hs.run (n := 509) (m := 1) (by decide) hdraws
  obtain ⟨u, hstep, hu, -⟩ := ht.step (by decide) hdraws'
  have hinv := run_invariant (fun _ _ _ => inv_drawn_step)
    ⟨(inv_of_start hstart).1, drawn_of_start hstart⟩ (hall _ _ _ s hstart) hrun
  have hkept := (hall _ _ (pathTicks 2 509 ++ [[keyOf (pathDir 511)]]) s hstart).of_run hrun
  have hcovered := (tailCovered_iff (ht.drain_eq (by decide))).1
    ((drawn_step_iff hinv.1 hinv.2).1 hkept)
  obtain ⟨d, hdrain, -, -, hrest⟩ := step_eq_some.1 hstep
  obtain rfl := Option.some.inj ((ht.drain_eq (by decide)).symm.trans hdrain)
  rw [if_pos (ht.meets_food (by decide))] at hrest
  have hfood := hcovered (ht.meets_food (by decide)) ht.slen_eq u hrest
  have htail : oldTail (withHeading t (pathDir 511)) = path 0 := by
    have hlen : t.slen = 512 := ht.slen_eq
    change t.snake (t.slen - 1) = _
    rw [hlen]
    exact ht.snake_eq 511 (by omega)
  apply path_ne (k := 0) (i := 513) (by decide) (by decide)
  exact hu.food_eq.symm.trans (hfood.trans htail)

end Snake

end Yotos
