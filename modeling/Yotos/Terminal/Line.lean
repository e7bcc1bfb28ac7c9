import Yotos.Terminal.Cursor

/-!
# A line on the screen

A character goes to the cursor's cell and a backspace takes the one before it away, also
across the ends of rows. When the screen scrolls, all cells move up by a row. So what is
typed on from some place of the screen, and rubbed out, stands there as a text.
-/

namespace Yotos

namespace Terminal

/-- The number of the cursor's cell. -/
def position (t : Terminal) : ℕ := t.row * vgaWidth + t.column

/-- From `t` to `t'` the screen was scrolled by `n` rows, and what was in the cells is still
there, except in cell `p`. -/
structure Scrolled (n p : ℕ) (t t' : Terminal) : Prop where
  row_lt : t'.row < vgaHeight
  column_lt : t'.column < vgaWidth
  color : t'.color = t.color
  cell : ∀ i, n * vgaWidth ≤ i → i < vgaHeight * vgaWidth → i ≠ p →
    t'.buffer (i - n * vgaWidth) = t.buffer i

/-- The screen shows `text` from the place on where the cursor of `t₀` was, and before it
what it showed then. -/
structure ShowsText (t₀ t : Terminal) (text : List UInt8) : Prop where
  row_lt : t.row < vgaHeight
  column_lt : t.column < vgaWidth
  color : t.color = t₀.color
  text : ∃ n, n * vgaWidth ≤ position t₀ ∧
    position t + n * vgaWidth = position t₀ + text.length ∧
    (∀ i c, text[i]? = some c →
      t.buffer (position t₀ + i - n * vgaWidth) = vgaEntry c t₀.color) ∧
    ∀ i, n * vgaWidth ≤ i → i < position t₀ → t.buffer (i - n * vgaWidth) = t₀.buffer i

variable {t t₀ t' : Terminal} {c : UInt8} {text : List UInt8}

theorem position_lt (hrow : t.row < vgaHeight) (hcolumn : t.column < vgaWidth) :
    position t < vgaHeight * vgaWidth := by
  unfold position vgaHeight vgaWidth at *
  omega

theorem nextRow_scrolled (hrow : t.row < vgaHeight) (p : ℕ) : ∃ n ≤ 1,
    Scrolled n p t (nextRow t) ∧ (nextRow t).column = 0 ∧ (nextRow t).row + n = t.row + 1 ∧
      (n = 1 → t.row + 1 = vgaHeight) := by
  have hmod : (t.row + 1) % 2 ^ 32 = t.row + 1 := by
    unfold vgaHeight at hrow
    exact Nat.mod_eq_of_lt (by omega)
  rw [nextRow, hmod]
  split_ifs with hlast
  · obtain ⟨hdrawn, hcells⟩ := terminalScroll_spec { t with row := t.row + 1, column := 0 }
    have hend : t.row + 1 = vgaHeight := hlast
    have hrow' := hdrawn.row
    have hcolumn' := hdrawn.column
    dsimp only at hrow' hcolumn'
    refine ⟨1, le_rfl, ⟨?_, ?_, hdrawn.color, fun i hi hlt _ => ?_⟩, hcolumn', ?_, fun _ => hend⟩
    · rw [hrow']
      exact Nat.lt_succ_self 24
    · rw [hcolumn']
      exact Nat.zero_lt_succ 79
    · rw [Nat.one_mul] at hi ⊢
      have hin : i - vgaWidth < (vgaHeight - 1) * vgaWidth := by
        unfold vgaHeight vgaWidth at *
        omega
      rw [hcells _ (by omega), if_pos hin, Nat.sub_add_cancel hi]
    · rw [hrow', hend]
      rfl
  · refine ⟨0, Nat.zero_le 1, ⟨?_, Nat.zero_lt_succ 79, rfl, fun i _ _ _ => ?_⟩, rfl, rfl, ?_⟩
    · exact Nat.lt_of_le_of_ne hrow hlast
    · rw [Nat.zero_mul, Nat.sub_zero]
    · intro h
      cases h

/-- A character in the cursor's cell, and the cursor behind it. -/
theorem terminalPutchar_scrolled (hrow : t.row < vgaHeight) (hcolumn : t.column < vgaWidth)
    (hnewline : c ≠ 0x0A) (hbackspace : c ≠ 0x08) : ∃ n ≤ 1,
    Scrolled n (position t) t (terminalPutchar t c) ∧
      position (terminalPutchar t c) + n * vgaWidth = position t + 1 ∧
      (n = 1 → position t + 1 = vgaHeight * vgaWidth) ∧
      (terminalPutchar t c).buffer (position t - n * vgaWidth) = vgaEntry c t.color := by
  have hmod : (t.column + 1) % 2 ^ 32 = t.column + 1 := by
    unfold vgaWidth at hcolumn
    exact Nat.mod_eq_of_lt (by omega)
  have hcell : cellIndex t.column t.row = position t := cellIndex_eq hcolumn hrow
  have hput : ∀ i, (terminalPutentryat t c t.color t.column t.row).buffer i =
      if i = position t then vgaEntry c t.color else t.buffer i := fun i => by
    rw [terminalPutentryat, buffer_setCell, hcell]
  have hlt := position_lt hrow hcolumn
  rw [terminalPutchar, if_neg hnewline, if_neg hbackspace]
  dsimp only
  rw [show (terminalPutentryat t c t.color t.column t.row).column = t.column from rfl, hmod]
  split_ifs with hwrap
  · obtain ⟨n, hn, hscrolled, hzero, hnext, hend⟩ := nextRow_scrolled
      (t := { terminalPutentryat t c t.color t.column t.row with column := t.column + 1 })
      hrow (vgaHeight * vgaWidth)
    have hnext' : (nextRow { terminalPutentryat t c t.color t.column t.row with
        column := t.column + 1 }).row + n = t.row + 1 := hnext
    have hpos : position t + 1 = (t.row + 1) * vgaWidth := by
      rw [position, Nat.succ_mul, ← hwrap]
      omega
    refine ⟨n, hn, ⟨hscrolled.row_lt, hscrolled.column_lt, hscrolled.color, fun i hi hi' hne => ?_⟩,
      ?_, fun hone => ?_, ?_⟩
    · rw [hscrolled.cell i hi hi' (Nat.ne_of_lt hi')]
      exact (hput i).trans (if_neg hne)
    · rw [hpos, position, hzero, Nat.add_zero, ← Nat.add_mul, hnext']
    · rw [hpos, show t.row + 1 = vgaHeight from hend hone]
    · rw [hscrolled.cell _ ?_ hlt (Nat.ne_of_lt hlt)]
      · exact (hput _).trans (if_pos rfl)
      · rcases Nat.le_one_iff_eq_zero_or_eq_one.1 hn with rfl | rfl
        · rw [Nat.zero_mul]
          exact Nat.zero_le _
        · have hrow' : t.row + 1 = vgaHeight := hend rfl
          unfold position vgaHeight vgaWidth at *
          omega
  · refine ⟨0, Nat.zero_le 1, ⟨hrow, Nat.lt_of_le_of_ne hcolumn hwrap, rfl, fun i _ _ hne => ?_⟩,
      ?_, ?_, ?_⟩
    · rw [Nat.zero_mul, Nat.sub_zero]
      exact (hput i).trans (if_neg hne)
    · rw [Nat.zero_mul, Nat.add_zero, position, position]
      rfl
    · intro h
      cases h
    · rw [Nat.zero_mul, Nat.sub_zero]
      exact (hput _).trans (if_pos rfl)

/-- A backspace goes to the cell before, and blanks it. -/
theorem terminalPutchar_backspace (hrow : t.row < vgaHeight) (hcolumn : t.column < vgaWidth)
    (hpos : 0 < position t) :
    Scrolled 0 (position t - 1) t (terminalPutchar t 0x08) ∧
      position (terminalPutchar t 0x08) + 1 = position t := by
  rw [terminalPutchar, if_neg (by decide), if_pos rfl]
  by_cases hback : 0 < t.column
  · have hcell : cellIndex (t.column - 1) t.row = position t - 1 := by
      rw [cellIndex_eq (by omega) hrow, position]
      omega
    rw [if_pos hback]
    dsimp only
    refine ⟨⟨hrow, Nat.lt_of_le_of_lt (Nat.sub_le _ _) hcolumn, rfl, fun i _ _ hne => ?_⟩, ?_⟩
    · rw [Nat.zero_mul, Nat.sub_zero, terminalPutentryat, buffer_setCell, hcell, if_neg hne]
    · change t.row * vgaWidth + (t.column - 1) + 1 = t.row * vgaWidth + t.column
      omega
  · have hzero : t.column = 0 := by omega
    have hrow' : t.row ≠ 0 := by
      intro hrow₀
      rw [position, hrow₀, hzero, Nat.zero_mul] at hpos
      exact Nat.lt_irrefl 0 hpos
    have hmod : (t.row + 2 ^ 32 - 1) % 2 ^ 32 = t.row - 1 := by
      unfold vgaHeight at hrow
      omega
    have hsplit : t.row * vgaWidth = (t.row - 1) * vgaWidth + vgaWidth := by
      rw [← Nat.succ_mul, Nat.succ_eq_add_one, Nat.sub_add_cancel (by omega)]
    have hwidth : vgaWidth = 80 := rfl
    have hcell : cellIndex (vgaWidth - 1) (t.row - 1) = position t - 1 := by
      rw [cellIndex_eq (by omega) (by omega), position, hsplit, hzero]
      omega
    rw [if_neg hback]
    dsimp only
    rw [hmod]
    refine ⟨⟨Nat.lt_of_le_of_lt (Nat.sub_le _ _) hrow, Nat.lt_succ_self 79, rfl,
      fun i _ _ hne => ?_⟩, ?_⟩
    · rw [Nat.zero_mul, Nat.sub_zero, terminalPutentryat, buffer_setCell, hcell, if_neg hne]
    · change (t.row - 1) * vgaWidth + (vgaWidth - 1) + 1 = t.row * vgaWidth + t.column
      omega

namespace ShowsText

theorem refl (hrow : t.row < vgaHeight) (hcolumn : t.column < vgaWidth) : ShowsText t t [] where
  row_lt := hrow
  column_lt := hcolumn
  color := rfl
  text := by
    refine ⟨0, ?_, ?_, fun i c hi => ?_, fun i _ _ => ?_⟩
    · rw [Nat.zero_mul]
      exact Nat.zero_le _
    · rw [Nat.zero_mul, List.length_nil]
    · cases hi
    · rw [Nat.zero_mul, Nat.sub_zero]

/-- One more character. It may scroll the screen, but not the place away where the text
begins. -/
theorem putchar (h : ShowsText t₀ t text) (hfits : text.length < (vgaHeight - 1) * vgaWidth)
    (hnewline : c ≠ 0x0A) (hbackspace : c ≠ 0x08) :
    ShowsText t₀ (terminalPutchar t c) (text ++ [c]) := by
  obtain ⟨hrow, hcolumn, hcolor, n, hn, hpos, htext, hbefore⟩ := h
  obtain ⟨m, hm, hscrolled, hpos', hend, hnew⟩ :=
    terminalPutchar_scrolled hrow hcolumn hnewline hbackspace
  have hlt := position_lt hrow hcolumn
  have hadd : (n + m) * vgaWidth = n * vgaWidth + m * vgaWidth := Nat.add_mul ..
  have hwidth : vgaWidth = 80 := rfl
  have hlast : vgaHeight * vgaWidth = (vgaHeight - 1) * vgaWidth + vgaWidth := rfl
  have hstart : (n + m) * vgaWidth ≤ position t₀ := by
    rcases Nat.le_one_iff_eq_zero_or_eq_one.1 hm with rfl | rfl
    · rw [Nat.add_zero]
      exact hn
    · have hfull := hend rfl
      rw [Nat.one_mul] at hadd
      omega
  have hcell : ∀ i, (n + m) * vgaWidth ≤ i → i < position t + n * vgaWidth →
      (terminalPutchar t c).buffer (i - (n + m) * vgaWidth) = t.buffer (i - n * vgaWidth) := by
    intro i hi hi'
    have := hscrolled.cell (i - n * vgaWidth) (by omega) (by omega) (by omega)
    rwa [Nat.sub_sub, ← hadd] at this
  refine ⟨hscrolled.row_lt, hscrolled.column_lt, hscrolled.color.trans hcolor, n + m, hstart, ?_,
    fun i x hi => ?_, fun i hi hi' => ?_⟩
  · rw [List.length_append, List.length_singleton]
    omega
  · rcases Nat.lt_or_ge i text.length with hold | hge
    · rw [List.getElem?_append_left hold] at hi
      rw [hcell _ (by omega) (by omega)]
      exact htext i x hi
    · have hlast := (List.getElem?_eq_some_iff.1 hi).1
      rw [List.length_append, List.length_singleton] at hlast
      obtain rfl : i = text.length := by omega
      rw [List.getElem?_concat_length] at hi
      rw [← Option.some.inj hi, show position t₀ + text.length - (n + m) * vgaWidth =
        position t - m * vgaWidth by omega, hnew, hcolor]
  · rw [hcell i hi (by omega)]
    exact hbefore i (by omega) hi'

/-- The last character is taken away. -/
theorem backspace (h : ShowsText t₀ t (text ++ [c])) : ShowsText t₀ (terminalPutchar t 0x08) text := by
  obtain ⟨hrow, hcolumn, hcolor, n, hn, hpos, htext, hbefore⟩ := h
  rw [List.length_append, List.length_singleton] at hpos
  obtain ⟨hscrolled, hpos'⟩ := terminalPutchar_backspace hrow hcolumn (by omega)
  have hlt := position_lt hrow hcolumn
  have hcell : ∀ i, n * vgaWidth ≤ i → i < position t₀ + text.length →
      (terminalPutchar t 0x08).buffer (i - n * vgaWidth) = t.buffer (i - n * vgaWidth) := by
    intro i hi hi'
    have := hscrolled.cell (i - n * vgaWidth) (by omega) (by omega) (by omega)
    rwa [Nat.zero_mul, Nat.sub_zero] at this
  refine ⟨hscrolled.row_lt, hscrolled.column_lt, hscrolled.color.trans hcolor, n, hn, by omega,
    fun i x hi => ?_, fun i hi hi' => ?_⟩
  · have hin := (List.getElem?_eq_some_iff.1 hi).1
    rw [hcell _ (by omega) (by omega)]
    refine htext i x ?_
    rwa [List.getElem?_append_left hin]
  · rw [hcell i hi (by omega)]
    exact hbefore i hi hi'

end ShowsText

end Terminal

end Yotos
