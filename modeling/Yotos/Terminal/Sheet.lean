import Yotos.Terminal.Cursor

/-!
# The screen as a window on a sheet

A sheet has as many rows as the text needs: a character goes to the cursor's cell, the
cursor goes to the next row after the last column and for a newline, and nothing is ever
lost. The terminal shows the last 25 rows of it, down to the cursor's, or the first 25 as
long as the cursor is in these.
-/

namespace Yotos

/-- Rows of `vgaWidth` cells without end, `none` where nothing was written. -/
structure Sheet where
  row : ℕ
  column : ℕ
  cell : ℕ → ℕ → Option UInt8

namespace Sheet

open Terminal

def blank : Sheet := ⟨0, 0, fun _ _ => none⟩

/-- The start of the next row. -/
def newline (s : Sheet) : Sheet := { s with row := s.row + 1, column := 0 }

/-- The character in the cursor's cell. -/
def mark (s : Sheet) (c : UInt8) : Sheet :=
  { s with cell := fun y x => if y = s.row ∧ x = s.column then some c else s.cell y x }

/-- One character laid out. -/
def put (s : Sheet) (c : UInt8) : Sheet :=
  if c = 0x0A then s.newline
  else if s.column + 1 = vgaWidth then (s.mark c).newline
  else { s.mark c with column := s.column + 1 }

def layOut (data : List UInt8) : Sheet := data.foldl put blank

/-- The first row of the last `vgaHeight` rows, or row 0. -/
def top (s : Sheet) : ℕ := s.row - (vgaHeight - 1)

theorem layOut_concat (data : List UInt8) (c : UInt8) :
    layOut (data ++ [c]) = (layOut data).put c := by
  rw [layOut, List.foldl_append]
  rfl

end Sheet

namespace Terminal

/-- The terminal shows the rows of the sheet from `top` on, unwritten cells as blanks. -/
structure Shows (t : Terminal) (s : Sheet) : Prop where
  row : s.top + t.row = s.row
  column : t.column = s.column
  cell : ∀ y < vgaHeight, ∀ x < vgaWidth, t.buffer (y * vgaWidth + x) =
    vgaEntry ((s.cell (s.top + y) x).getD 0x20) defaultColor

/-- `Shows` with what the next character relies on. -/
structure Tracks (t : Terminal) (s : Sheet) : Prop where
  shows : Shows t s
  color : t.color = defaultColor
  row_lt : t.row < vgaHeight
  column_lt : t.column < vgaWidth
  below : ∀ y x, s.row < y → s.cell y x = none

variable {t : Terminal} {s : Sheet} {c : UInt8}

/-- A character in the cursor's cell, on screen and sheet. -/
theorem Tracks.mark (h : Tracks t s) (c : UInt8) :
    Tracks (terminalPutentryat t c t.color t.column t.row) (s.mark c) where
  shows := {
    row := h.shows.row
    column := h.shows.column
    cell y hy x hx := by
      have hrow := h.shows.row
      have htop : (s.mark c).top = s.top := rfl
      have hcell : (s.mark c).cell (s.top + y) x =
          if s.top + y = s.row ∧ x = s.column then some c else s.cell (s.top + y) x := rfl
      rw [terminalPutentryat, buffer_setCell, cellIndex_eq h.column_lt h.row_lt, h.color, htop,
        hcell, h.shows.cell y hy x hx, ← h.shows.column]
      by_cases hhere : y = t.row ∧ x = t.column
      · rw [hhere.1, hhere.2, if_pos rfl, if_pos ⟨hrow, rfl⟩]
        rfl
      · have hindex : y * vgaWidth + x ≠ t.row * vgaWidth + t.column := by
          have hcolumn := h.column_lt
          unfold vgaWidth at *
          omega
        rw [if_neg hindex, if_neg fun heq => hhere ⟨by omega, heq.2⟩] }
  color := h.color
  row_lt := h.row_lt
  column_lt := h.column_lt
  below y x hy := by
    have hne : ¬ (y = s.row ∧ x = s.column) := fun heq => absurd heq.1 (Nat.ne_of_gt hy)
    exact (if_neg hne).trans (h.below y x hy)

/-- The next row: the window moves down by one when the cursor was in its last row. -/
theorem Tracks.nextRow (h : Tracks t s) : Tracks (nextRow t) s.newline := by
  have hrow := h.shows.row
  have hlt := h.row_lt
  have hbelow : ∀ y x, s.row + 1 < y → s.cell y x = none := fun y x hy => h.below y x (by omega)
  have hmod : (t.row + 1) % 2 ^ 32 = t.row + 1 := by
    unfold vgaHeight at hlt
    exact Nat.mod_eq_of_lt (by omega)
  rw [Terminal.nextRow, hmod]
  split_ifs with hlast
  · obtain ⟨hdrawn, hcells⟩ := terminalScroll_spec
      { t with row := t.row + 1, column := 0 }
    have htop : s.newline.top = s.top + 1 := by
      change s.row + 1 - (vgaHeight - 1) = s.row - (vgaHeight - 1) + 1
      dsimp only at hlast
      rw [Sheet.top] at hrow
      unfold vgaHeight at *
      omega
    refine ⟨⟨?_, hdrawn.column, fun y hy x hx => ?_⟩, hdrawn.color.trans h.color, ?_, ?_, hbelow⟩
    · rw [htop, hdrawn.row]
      change s.top + 1 + (vgaHeight - 1) = s.row + 1
      dsimp only at hlast
      omega
    · have hindex := cellIndex_lt hx hy
      rw [cellIndex_eq hx hy] at hindex
      rw [hcells _ hindex, htop]
      change _ = vgaEntry ((s.cell (s.top + 1 + y) x).getD 0x20) defaultColor
      by_cases hy' : y < vgaHeight - 1
      · have hnext : y * vgaWidth + x + vgaWidth = (y + 1) * vgaWidth + x := by
          rw [Nat.succ_mul]
          omega
        have hin : y * vgaWidth + x < (vgaHeight - 1) * vgaWidth := by
          unfold vgaHeight vgaWidth at *
          omega
        rw [if_pos hin, hnext, h.shows.cell (y + 1) (by omega) x hx, Nat.add_right_comm]
        rfl
      · have hout : ¬ y * vgaWidth + x < (vgaHeight - 1) * vgaWidth := by
          unfold vgaHeight vgaWidth at *
          omega
        have hlast' : s.row < s.top + 1 + y := by
          dsimp only at hlast
          omega
        rw [if_neg hout, h.below _ x hlast', h.color]
        rfl
    · rw [hdrawn.row]
      exact Nat.lt_succ_self 24
    · rw [hdrawn.column]
      exact Nat.zero_lt_succ 79
  · dsimp only at hlast
    have htop : s.newline.top = s.top := by
      change s.row + 1 - (vgaHeight - 1) = s.row - (vgaHeight - 1)
      rw [Sheet.top] at hrow
      unfold vgaHeight at *
      omega
    refine ⟨⟨?_, rfl, fun y hy x hx => ?_⟩, h.color, Nat.lt_of_le_of_ne hlt hlast,
      Nat.zero_lt_succ 79, hbelow⟩
    · rw [htop]
      change s.top + (t.row + 1) = s.row + 1
      omega
    · rw [htop]
      exact h.shows.cell y hy x hx

/-- One character other than a backspace. -/
theorem Tracks.put (h : Tracks t s) (hc : c ≠ 0x08) : Tracks (terminalPutchar t c) (s.put c) := by
  have hcolumn := h.column_lt
  have hmod : (t.column + 1) % 2 ^ 32 = t.column + 1 := by
    unfold vgaWidth at hcolumn
    exact Nat.mod_eq_of_lt (by omega)
  have hmark := h.mark c
  have hsame : (terminalPutentryat t c t.color t.column t.row).column = t.column := rfl
  rw [terminalPutchar, Sheet.put]
  by_cases hnewline : c = 0x0A
  · rw [if_pos hnewline, if_pos hnewline]
    exact h.nextRow
  · rw [if_neg hnewline, if_neg hnewline, if_neg hc]
    dsimp only
    rw [hsame, hmod, ← h.shows.column]
    by_cases hwrap : t.column + 1 = vgaWidth
    · rw [if_pos hwrap, if_pos hwrap]
      exact hmark.nextRow
    · rw [if_neg hwrap, if_neg hwrap]
      exact ⟨⟨hmark.shows.row, rfl, hmark.shows.cell⟩, hmark.color, hmark.row_lt,
        Nat.lt_of_le_of_ne hcolumn hwrap, hmark.below⟩

theorem tracks_terminalInitialize (t : Terminal) :
    Tracks (terminalInitialize t) Sheet.blank := by
  obtain ⟨hdrawn, hcells⟩ := terminalInitialize_spec t
  refine ⟨⟨hdrawn.row.symm ▸ rfl, hdrawn.column, fun y hy x hx => ?_⟩, hdrawn.color, ?_, ?_,
    fun _ _ _ => rfl⟩
  · have hindex := cellIndex_lt hx hy
    rw [cellIndex_eq hx hy] at hindex
    rw [hcells _ hindex]
    rfl
  · rw [hdrawn.row]
    exact Nat.zero_lt_succ 24
  · rw [hdrawn.column]
    exact Nat.zero_lt_succ 79

/-- Text without backspaces, after `terminal_initialize`: the screen shows the sheet on
which the same text is laid out. -/
theorem shows_layOut (t : Terminal) {data : List UInt8} (hdata : 0x08 ∉ data) :
    Shows (terminalWrite (terminalInitialize t) data) (Sheet.layOut data) := by
  have htracks : Tracks (terminalWrite (terminalInitialize t) data) (Sheet.layOut data) := by
    induction data using List.reverseRecOn with
    | nil => exact tracks_terminalInitialize t
    | append_singleton data c ih =>
        rw [List.mem_append, not_or] at hdata
        rw [terminalWrite_concat, Sheet.layOut_concat]
        exact (ih hdata.1).put fun heq => hdata.2 (List.mem_singleton.2 heq.symm)
  exact htracks.shows

/-- 26 newlines and a letter: the letter is in the last row of the screen, which shows the
rows 2 to 26 of the sheet. -/
theorem shows_layOut_scrolled :
    Shows (terminalWrite (terminalInitialize ⟨0, 0, 0, fun _ => 0, []⟩)
        (List.replicate 26 0x0A ++ [0x41])) (Sheet.layOut (List.replicate 26 0x0A ++ [0x41])) ∧
      (Sheet.layOut (List.replicate 26 0x0A ++ [0x41])).top = 2 ∧
      (Sheet.layOut (List.replicate 26 0x0A ++ [0x41])).cell 26 0 = some 0x41 :=
  ⟨shows_layOut _ (by decide), by decide, by decide⟩

end Terminal

end Yotos
