import Yotos.Snake.Body
import Mathlib.Tactic.IntervalCases

/-!
# Feeding the snake for ever

A closed path of 650 cells through the play area, longer than the snake can get. If every
food is drawn on the next cell of the path, a player who follows the path eats in every
tick.
-/

namespace Yotos

namespace Snake

open Library

/-- Ten rows of 64 cells, to the right and back in turn, and a column back up. -/
def loopCell (c : ℕ) : Pt :=
  if c < 640 then
    ⟨if c / 64 % 2 = 0 then 2 + (c % 64 : ℕ) else 65 - (c % 64 : ℕ), 12 + (c / 64 : ℕ)⟩
  else ⟨1, 661 - c⟩

/-- The place of a cell on the closed path. -/
def loopPlace (p : Pt) : ℕ :=
  if p.x = 1 then (661 - p.y).toNat
  else if p.y % 2 = 0 then (64 * (p.y - 12) + (p.x - 2)).toNat
  else (64 * (p.y - 12) + (65 - p.x)).toNat

/-- The path from where the tail of the first snake is. -/
def path (k : ℕ) : Pt := loopCell ((k + 36) % 650)

/-- From one cell of the path to the next. -/
def pathDir (k : ℕ) : Pt := ⟨(path (k + 1)).x - (path k).x, (path (k + 1)).y - (path k).y⟩

/-- A key that asks for the direction. -/
def keyOf (v : Pt) : UInt8 :=
  if v.y = -1 then 'w'.toUInt8 else if v.y = 1 then 's'.toUInt8
  else if v.x = -1 then 'a'.toUInt8 else 'd'.toUInt8

/-- Random numbers that put `n` foods on the path from place `k` on. -/
def pathDraws : (k n : ℕ) → List UInt32
  | _, 0 => []
  | k, n + 1 =>
      ((path k).x - px).toNat.toUInt32 :: ((path k).y - py).toNat.toUInt32 :: pathDraws (k + 1) n

/-- The keys of `n` ticks along the path. -/
def pathTicks : (k n : ℕ) → List (List UInt8)
  | _, 0 => []
  | k, n + 1 => [keyOf (pathDir k)] :: pathTicks (k + 1) n

/-- The snake lies on the path with its head at place `k`, and has eaten all the way. -/
structure Fed (k : ℕ) (s : Snake) : Prop where
  snake_eq : ∀ i < s.slen, s.snake i = path (k - i)
  slen_eq : s.slen = min (k + 1) maxLen
  heading_eq : heading s = pathDir (k - 1)
  food_eq : s.food = path (k + 1)
  score_eq : s.score.toNat = (k - 2) % 2 ^ 32

variable {s t : Snake} {k m n i c : ℕ} {v e : Pt}

/-! ### The path -/

theorem loopPlace_loopCell (h : c < 650) : loopPlace (loopCell c) = c := by
  unfold loopCell loopPlace
  split_ifs <;> dsimp only at * <;> omega

theorem inPlay_path (k : ℕ) : InPlay (path k) := by
  have hlt : (k + 36) % 650 < 650 := Nat.mod_lt _ (by decide)
  unfold path loopCell InPlay px py pw ph
  split_ifs <;> dsimp only <;> omega

theorem path_ne (hpos : 0 < i) (hlt : i < 650) : path (k + i) ≠ path k := by
  intro h
  have hplace := congrArg loopPlace h
  rw [path, path, loopPlace_loopCell (Nat.mod_lt _ (by decide)),
    loopPlace_loopCell (Nat.mod_lt _ (by decide))] at hplace
  omega

theorem loopCell_row {j r : ℕ} (hj : j < 10) (hr : r < 64) :
    loopCell (64 * j + r) = ⟨if j % 2 = 0 then 2 + (r : ℤ) else 65 - (r : ℤ), 12 + (j : ℤ)⟩ := by
  have hdiv : (64 * j + r) / 64 = j := by omega
  have hmod : (64 * j + r) % 64 = r := by omega
  rw [loopCell, if_pos (by omega), hdiv, hmod]

theorem isDir_loop (h : c < 650) :
    IsDir ⟨(loopCell ((c + 1) % 650)).x - (loopCell c).x,
      (loopCell ((c + 1) % 650)).y - (loopCell c).y⟩ := by
  unfold IsDir
  rcases Nat.lt_or_ge c 639 with hrow | hcol
  · obtain ⟨j, r, hr, rfl⟩ : ∃ j r, r < 64 ∧ c = 64 * j + r :=
      ⟨c / 64, c % 64, Nat.mod_lt _ (by decide), (Nat.div_add_mod c 64).symm⟩
    rw [Nat.mod_eq_of_lt (by omega), loopCell_row (by omega) hr]
    rcases Nat.lt_or_ge r 63 with hlt | hge
    · -- along a row
      rw [Nat.add_assoc, loopCell_row (by omega) (by omega)]
      split_ifs <;> dsimp only <;> omega
    · -- down to the next row
      obtain rfl : r = 63 := by omega
      have hnext : 64 * j + 63 + 1 = 64 * (j + 1) + 0 := by omega
      rw [hnext, loopCell_row (by omega) (by decide)]
      split_ifs <;> dsimp only <;> omega
  · unfold loopCell
    split_ifs <;> dsimp only <;> omega

theorem isDir_pathDir (k : ℕ) : IsDir (pathDir k) := by
  have hnext : (k + 1 + 36) % 650 = ((k + 36) % 650 + 1) % 650 := by omega
  have hdir := isDir_loop (c := (k + 36) % 650) (Nat.mod_lt _ (by decide))
  rw [← hnext] at hdir
  exact hdir

/-- The path never turns back. -/
theorem steer_pathDir (k : ℕ) : steer (pathDir k) (pathDir (k + 1)) = pathDir (k + 1) := by
  apply (isDir_pathDir k).steer_eq (isDir_pathDir (k + 1))
  rintro ⟨hx, hy⟩
  apply path_ne (k := k) (i := 2) (by decide) (by decide)
  have hx' : (path (k + 2)).x = (path k).x := by
    simp only [pathDir, Nat.add_assoc, Nat.reduceAdd] at hx
    omega
  have hy' : (path (k + 2)).y = (path k).y := by
    simp only [pathDir, Nat.add_assoc, Nat.reduceAdd] at hy
    omega
  calc path (k + 2) = ⟨(path (k + 2)).x, (path (k + 2)).y⟩ := rfl
    _ = path k := by rw [hx', hy']

theorem asked_keyOf (h : IsDir v) : asked (keyOf v) = some v := by
  obtain ⟨x, y⟩ := v
  simp only [IsDir] at h
  rcases h with ⟨rfl, rfl | rfl⟩ | ⟨rfl, rfl | rfl⟩ <;> rfl

theorem drain_keyOf (s : Snake) (h : IsDir v) :
    drain [keyOf v] s = some (withHeading s (steer (heading s) v)) := by
  have hzero : keyOf v ≠ 0 := by
    unfold keyOf
    split_ifs <;> decide
  have hquits : ¬ Quits [keyOf v] := by
    unfold keyOf
    split_ifs <;> decide
  rw [drain_eq_some]
  refine ⟨hquits, ?_⟩
  simp [moves, waiting, hzero, asked_keyOf h]

theorem toNat_toUInt32_mod (hc : c < m) (hm : m < 2 ^ 32) :
    (c.toUInt32 % m.toUInt32).toNat = c := by
  calc (c.toUInt32 % m.toUInt32).toNat = c.toUInt32.toNat % m.toUInt32.toNat :=
        UInt32.toNat_mod ..
    _ = c % m := by rw [UInt32.toNat_ofNat_of_lt' hm, UInt32.toNat_ofNat_of_lt' (hc.trans hm)]
    _ = c := Nat.mod_eq_of_lt hc

theorem drawnCell_path (k : ℕ) :
    drawnCell ((path k).x - px).toNat.toUInt32 ((path k).y - py).toNat.toUInt32 = path k := by
  obtain ⟨hx, hx', hy, hy'⟩ := inPlay_path k
  simp only [px, py, pw, ph] at hx hx' hy hy'
  have hcol : px + ((path k).x - px).toNat = (path k).x := by
    simp only [px]
    omega
  have hrow : py + ((path k).y - py).toNat = (path k).y := by
    simp only [py]
    omega
  rw [drawnCell, toNat_toUInt32_mod, toNat_toUInt32_mod, hcol, hrow]
  · simp only [py, ph]
    omega
  · decide
  · simp only [px, pw]
    omega
  · decide

/-! ### The snake on the path -/

/-- The key of the next direction is taken. -/
theorem Fed.drain_eq (h : Fed k s) (hk : 2 ≤ k) :
    drain [keyOf (pathDir k)] s = some (withHeading s (pathDir k)) := by
  have hturn := steer_pathDir (k - 1)
  rw [Nat.sub_add_cancel (by omega), ← h.heading_eq] at hturn
  rw [drain_keyOf s (isDir_pathDir k), hturn]

theorem Fed.newHead_eq (h : Fed k s) (hk : 2 ≤ k) :
    newHead (withHeading s (pathDir k)) = path (k + 1) := by
  have hlen := h.slen_eq
  have hhead := h.snake_eq 0 (by rw [hlen, maxLen]; omega)
  change Pt.mk ((s.snake 0).x + (pathDir k).x) ((s.snake 0).y + (pathDir k).y) = _
  rw [hhead, Nat.sub_zero]
  calc Pt.mk ((path k).x + (pathDir k).x) ((path k).y + (pathDir k).y)
      = ⟨(path (k + 1)).x, (path (k + 1)).y⟩ := by
        simp only [pathDir]
        congr 1 <;> omega
    _ = path (k + 1) := rfl

theorem Fed.ahead (h : Fed k s) (hk : 2 ≤ k) (hi : i < 100) : path (k + 1 + i) ∉ cells s := by
  rw [cells, mem_front]
  rintro ⟨j, hj, heq⟩
  have hlen := h.slen_eq
  rw [maxLen] at hlen
  rw [h.snake_eq j hj] at heq
  apply path_ne (k := k - j) (i := j + 1 + i) (by omega) (by omega)
  rw [heq]
  congr 1
  omega

theorem Fed.meets_food (h : Fed k s) (hk : 2 ≤ k) :
    newHead (withHeading s (pathDir k)) = (withHeading s (pathDir k)).food := by
  rw [h.newHead_eq hk]
  exact h.food_eq.symm

theorem Fed.slen_advance_eq (h : Fed k s) (hk : 2 ≤ k) :
    (advance (withHeading s (pathDir k))).slen = min (k + 2) maxLen := by
  have hlen := h.slen_eq
  have hgrows : Grows (withHeading s (pathDir k)) ↔ s.slen < maxLen :=
    and_iff_right (h.meets_food hk)
  rw [slen_advance, if_congr hgrows rfl rfl]
  change (if s.slen < maxLen then s.slen + 1 else s.slen) = _
  split_ifs <;> omega

theorem Fed.snake_advance_eq (h : Fed k s) (hk : 2 ≤ k)
    (hi : i < (advance (withHeading s (pathDir k))).slen) :
    (advance (withHeading s (pathDir k))).snake i = path (k + 1 - i) := by
  cases i with
  | zero =>
      rw [advance_snake_zero]
      exact h.newHead_eq hk
  | succ i =>
      rw [advance_snake_succ hi, Nat.add_sub_add_right]
      apply h.snake_eq
      have hlen := h.slen_eq
      rw [h.slen_advance_eq hk] at hi
      omega

theorem placeFood_pathDraws {snake : ℕ → Pt} {slen : ℕ} (h : ∀ i < slen, snake i ≠ path k) (n : ℕ) :
    placeFood snake slen (pathDraws k (n + 1)) = some (path k, pathDraws (k + 1) n) := by
  rw [pathDraws, placeFood, drawnCell_path, if_neg]
  rintro ⟨i, hi, heq⟩
  exact h i hi heq

/-- On the path the next food is eaten, and the one after it is placed ahead. -/
theorem Fed.step (h : Fed k s) (hk : 2 ≤ k) (hdraws : s.draws = pathDraws (k + 2) (n + 1)) :
    ∃ t, step s [keyOf (pathDir k)] = some t ∧ Fed (k + 1) t ∧ t.draws = pathDraws (k + 3) n := by
  have hlen := h.slen_advance_eq hk
  have hplace : placeFood (advance (withHeading s (pathDir k))).snake
      (advance (withHeading s (pathDir k))).slen s.draws =
        some (path (k + 2), pathDraws (k + 3) n) := by
    rw [hdraws]
    apply placeFood_pathDraws
    intro i hi
    rw [h.snake_advance_eq hk hi]
    rw [hlen, maxLen] at hi
    have hne := path_ne (k := k + 1 - i) (i := i + 1) (by omega) (by omega)
    rw [show k + 1 - i + (i + 1) = k + 2 by omega] at hne
    exact Ne.symm hne
  have hfeed := feed_eq_some.2 ⟨_, _, hplace, rfl⟩
  have hstep := step_eq_some.2 ⟨_, h.drain_eq hk, h.newHead_eq hk ▸ inPlay_path (k + 1),
    h.newHead_eq hk ▸ fun hmem => h.ahead (i := 0) hk (by decide) (List.dropLast_subset _ hmem),
    (if_pos (h.meets_food hk)).mpr hfeed⟩
  refine ⟨_, hstep, ⟨fun i hi => h.snake_advance_eq hk hi, hlen, rfl, rfl, ?_⟩, rfl⟩
  have hscore := h.score_eq
  change (s.score + 1).toNat = _
  rw [UInt32.toNat_add, hscore]
  change ((k - 2) % 2 ^ 32 + 1) % 2 ^ 32 = _
  omega

theorem Fed.run (h : Fed k s) (hk : 2 ≤ k) (hdraws : s.draws = pathDraws (k + 2) (n + m)) :
    ∃ t, run Snake.step s (pathTicks k n) = some t ∧ Fed (k + n) t ∧
      t.draws = pathDraws (k + n + 2) m := by
  induction n generalizing k s with
  | zero =>
      rw [Nat.zero_add] at hdraws
      exact ⟨s, rfl, h, hdraws⟩
  | succ n ih =>
      rw [Nat.add_right_comm] at hdraws
      obtain ⟨u, hstep, hu, hrest⟩ := h.step hk hdraws
      obtain ⟨t, hrun, ht⟩ := ih hu (by omega) hrest
      rw [Nat.add_right_comm k 1 n] at ht
      exact ⟨t, run_cons_eq_some.2 ⟨u, hstep, hrun⟩, ht⟩

theorem fed_start (vga : ℤ → UInt16) (n : ℕ) :
    ∃ s, start vga (pathDraws 3 (n + 1)) = some s ∧ Fed 2 s ∧ s.draws = pathDraws 4 n := by
  simp only [start]
  rw [placeFood_pathDraws, Option.map_some]
  · refine ⟨_, rfl, ⟨?_, rfl, rfl, rfl, rfl⟩, rfl⟩
    intro i hi
    change i < 3 at hi
    interval_cases i <;> rfl
  · intro i hi
    interval_cases i <;> decide

/-! ### The length and the score -/

/-- In every state of every game the body and the food are well placed, and the length is
that of the first snake and the foods that were eaten, up to `MAX_LEN`. The score counts
the foods in 32 bits. -/
theorem wellPlaced_of_reaches (vga : ℤ → UInt16) (draws : List UInt32)
    (ticks : List (List UInt8)) (s u : Snake) (hstart : start vga draws = some s)
    (hreach : Reaches s ticks u) :
    WellPlaced u ∧ u.slen = min (3 + eaten s ticks) maxLen ∧
      u.score.toNat = eaten s ticks % 2 ^ 32 := by
  obtain ⟨hs, hslen, hscore⟩ := inv_of_start hstart
  obtain ⟨t, hrun, hu⟩ := hreach
  obtain ⟨ht, hslen', hscore'⟩ := hs.run hrun
  rw [hslen] at hslen'
  rw [hscore, UInt32.toNat_zero, Nat.zero_add] at hscore'
  rcases hu with rfl | ⟨keys, hover⟩
  · exact ⟨ht.toWellPlaced, hslen', hscore'⟩
  · obtain ⟨d, hdrain, -, rfl⟩ := tick_eq_over.1 hover
    rw [← slen_of_drain hdrain] at hslen'
    rw [← score_of_drain hdrain] at hscore'
    exact ⟨(ht.toWellPlaced.drain hdrain).gameOver, hslen', hscore'⟩

theorem wellPlaced_of_reaches_pathTicks :
    ∃ s u, start (fun _ => 0) (pathDraws 3 2) = some s ∧ Reaches s (pathTicks 2 1) u ∧
      WellPlaced u ∧ u.slen = min (3 + eaten s (pathTicks 2 1)) maxLen ∧
        u.score.toNat = eaten s (pathTicks 2 1) % 2 ^ 32 := by
  obtain ⟨s, hstart, hs, hdraws⟩ := fed_start (fun _ => 0) 1
  obtain ⟨u, hrun, -⟩ := hs.run (m := 0) (by decide) hdraws
  have hreach : Reaches s (pathTicks 2 1) u := ⟨u, hrun, Or.inl rfl⟩
  exact ⟨s, u, hstart, hreach, wellPlaced_of_reaches _ _ _ s u hstart hreach⟩

/-- After `2 ^ 32` foods the score is `0` again, and the snake is as long as it gets. -/
theorem not_slen_eq_score :
    ¬ ∀ (vga : ℤ → UInt16) (draws : List UInt32) (ticks : List (List UInt8)) (s u : Snake),
      start vga draws = some s → Reaches s ticks u →
        WellPlaced u ∧ u.slen = min (3 + u.score.toNat) maxLen := by
  intro hall
  obtain ⟨s, hstart, hs, hdraws⟩ := fed_start (fun _ => 0) (2 ^ 32)
  obtain ⟨u, hrun, hu, -⟩ := hs.run (n := 2 ^ 32) (m := 0) (by decide) hdraws
  obtain ⟨-, hslen⟩ := hall _ _ _ s u hstart ⟨u, hrun, Or.inl rfl⟩
  have hlong := hu.slen_eq
  have hscore := hu.score_eq
  rw [maxLen] at hslen hlong
  omega

end Snake

end Yotos
