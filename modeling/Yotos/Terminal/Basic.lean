import Yotos.Library.Search
import Mathlib.Algebra.Group.Nat.Defs

/-!
# The text terminal

`drivers/vga.c`: a cursor over a text buffer of 25 rows of 80 cells. Row and column are
`size_t` values of 32 bits, and an index into the buffer wraps at `2 ^ 31` cells, where
its byte offset does. A cell past the buffer is memory of the kernel. The hardware cursor,
which `terminal_update_cursor` moves, is no part of the model.
-/

namespace Yotos

open Library

/-- The static variables of the driver, with the cells that were written so far. -/
structure Terminal where
  row : ℕ
  column : ℕ
  color : UInt8
  buffer : ℕ → UInt16
  written : List ℕ

namespace Terminal

/-- `VGA_WIDTH`. -/
def vgaWidth : ℕ := 80

/-- `VGA_HEIGHT`. -/
def vgaHeight : ℕ := 25

/-- `vga_entry_color`. -/
def vgaEntryColor (fg bg : UInt8) : UInt8 := fg ||| bg <<< 4

/-- `vga_entry`. -/
def vgaEntry (uc color : UInt8) : UInt16 := uc.toUInt16 ||| color.toUInt16 <<< 8

/-- `VGA_COLOR_LIGHT_GREY` on `VGA_COLOR_BLACK`. -/
def defaultColor : UInt8 := vgaEntryColor 7 0

/-- A store to `terminal_buffer[index]`. -/
def setCell (t : Terminal) (index : ℕ) (entry : UInt16) : Terminal :=
  { t with
    buffer := fun i => if i = index then entry else t.buffer i
    written := index :: t.written }

/-- The cell that `terminal_buffer[y * VGA_WIDTH + x]` is. -/
def cellIndex (x y : ℕ) : ℕ := (y * vgaWidth + x) % 2 ^ 31

/-- `terminal_putentryat`. -/
def terminalPutentryat (t : Terminal) (c color : UInt8) (x y : ℕ) : Terminal :=
  setCell t (cellIndex x y) (vgaEntry c color)

/-- `terminal_initialize`. -/
def terminalInitialize (t : Terminal) : Terminal :=
  (List.range vgaHeight).foldl (fun t y => (List.range vgaWidth).foldl
      (fun t x => setCell t (y * vgaWidth + x) (vgaEntry 0x20 t.color)) t)
    { t with row := 0, column := 0, color := defaultColor }

/-- `terminal_clear_row`. -/
def terminalClearRow (t : Terminal) (row : ℕ) : Terminal :=
  (List.range vgaWidth).foldl (fun t x => terminalPutentryat t 0x20 t.color x row) t

/-- The loops of `terminal_scroll`: row `y` is copied to row `y - 1`, from row 1 on. -/
def copyRows (t : Terminal) : Terminal :=
  (List.range (vgaHeight - 1)).foldl (fun t k => (List.range vgaWidth).foldl
    (fun t x => setCell t (k * vgaWidth + x) (t.buffer ((k + 1) * vgaWidth + x))) t) t

/-- `terminal_scroll`. -/
def terminalScroll (t : Terminal) : Terminal :=
  { terminalClearRow (copyRows t) (vgaHeight - 1) with row := vgaHeight - 1 }

/-- `++terminal_row`, with the scroll behind the last row. -/
def nextRow (t : Terminal) : Terminal :=
  let t := { t with column := 0, row := (t.row + 1) % 2 ^ 32 }
  if t.row = vgaHeight then terminalScroll t else t

/-- `terminal_putchar`. -/
def terminalPutchar (t : Terminal) (c : UInt8) : Terminal :=
  if c = 0x0A then nextRow t
  else if c = 0x08 then
    if 0 < t.column then
      let t := { t with column := t.column - 1 }
      terminalPutentryat t 0x20 t.color t.column t.row
    else
      let t := { t with row := (t.row + 2 ^ 32 - 1) % 2 ^ 32, column := vgaWidth - 1 }
      terminalPutentryat t 0x20 t.color t.column t.row
  else
    let t := terminalPutentryat t c t.color t.column t.row
    let t := { t with column := (t.column + 1) % 2 ^ 32 }
    if t.column = vgaWidth then nextRow t else t

/-- `terminal_write`. -/
def terminalWrite (t : Terminal) (data : List UInt8) : Terminal := data.foldl terminalPutchar t

/-! ## The loops over the buffer -/

/-- From `t` to `t'` only cells of the buffer were written, and the cursor and the colour
did not change. -/
structure Drawn (t t' : Terminal) : Prop where
  row : t'.row = t.row
  column : t'.column = t.column
  color : t'.color = t.color
  written : ∀ i ∈ t'.written, i ∈ t.written ∨ i < vgaHeight * vgaWidth

variable {t t' t'' : Terminal} {i x y : ℕ}

theorem Drawn.refl (t : Terminal) : Drawn t t :=
  ⟨rfl, rfl, rfl, fun _ hi => Or.inl hi⟩

theorem Drawn.setCell (h : Drawn t t') (hi : i < vgaHeight * vgaWidth) (entry : UInt16) :
    Drawn t (t'.setCell i entry) where
  row := h.row
  column := h.column
  color := h.color
  written j hj := by
    rcases List.mem_cons.1 hj with rfl | hj
    · exact Or.inr hi
    · exact h.written j hj

theorem Drawn.trans (h : Drawn t t') (h' : Drawn t' t'') : Drawn t t'' where
  row := h'.row.trans h.row
  column := h'.column.trans h.column
  color := h'.color.trans h.color
  written i hi := (h'.written i hi).elim (h.written i) Or.inr

theorem Drawn.withRow (h : Drawn t t') (row : ℕ) :
    Drawn { t with row := row } { t' with row := row } where
  row := rfl
  column := h.column
  color := h.color
  written := h.written

/-- A cell of the screen has its own index. -/
theorem cellIndex_eq (hx : x < vgaWidth) (hy : y < vgaHeight) :
    cellIndex x y = y * vgaWidth + x := by
  unfold cellIndex
  unfold vgaWidth vgaHeight at *
  exact Nat.mod_eq_of_lt (by omega)

theorem cellIndex_lt (hx : x < vgaWidth) (hy : y < vgaHeight) :
    cellIndex x y < vgaHeight * vgaWidth := by
  rw [cellIndex_eq hx hy]
  unfold vgaWidth vgaHeight at *
  omega

@[simp] theorem buffer_setCell (entry : UInt16) (j : ℕ) :
    (t.setCell i entry).buffer j = if j = i then entry else t.buffer j := rfl

/-- The loops of `terminal_initialize` blank the whole buffer. -/
theorem terminalInitialize_spec (t : Terminal) :
    Drawn { t with row := 0, column := 0, color := defaultColor } (terminalInitialize t) ∧
      ∀ i < vgaHeight * vgaWidth, (terminalInitialize t).buffer i = vgaEntry 0x20 defaultColor := by
  refine foldl_rows_invariant (fun n t' =>
    Drawn { t with row := 0, column := 0, color := defaultColor } t' ∧
      ∀ i < n, t'.buffer i = vgaEntry 0x20 defaultColor)
    ⟨Drawn.refl _, fun i hi => absurd hi (Nat.not_lt_zero i)⟩ ?_
  rintro y hy x hx t' ⟨hdrawn, hblank⟩
  have hcell := cellIndex_lt hx hy
  rw [cellIndex_eq hx hy] at hcell
  refine ⟨hdrawn.setCell hcell _, fun i hi => ?_⟩
  rw [buffer_setCell, hdrawn.color]
  split_ifs with heq
  · rfl
  · exact hblank i (by omega)

/-- `terminal_clear_row` blanks one row. -/
theorem terminalClearRow_spec (t : Terminal) (hy : y < vgaHeight) :
    Drawn t (terminalClearRow t y) ∧ ∀ i, (terminalClearRow t y).buffer i =
      if y * vgaWidth ≤ i ∧ i < y * vgaWidth + vgaWidth then vgaEntry 0x20 t.color
      else t.buffer i := by
  refine foldl_range_invariant (fun n t' => Drawn t t' ∧ ∀ i, t'.buffer i =
      if y * vgaWidth ≤ i ∧ i < y * vgaWidth + n then vgaEntry 0x20 t.color else t.buffer i)
    ⟨Drawn.refl t, fun i => (if_neg (by omega)).symm⟩ ?_
  rintro x hx t' ⟨hdrawn, hcells⟩
  refine ⟨hdrawn.setCell (cellIndex_lt hx hy) _, fun i => ?_⟩
  rw [terminalPutentryat, buffer_setCell, cellIndex_eq hx hy, hdrawn.color, hcells i]
  by_cases heq : i = y * vgaWidth + x
  · rw [if_pos heq, if_pos (by omega)]
  · rw [if_neg heq]
    exact if_congr (by omega) rfl rfl

/-- Every cell is read before it is overwritten. -/
theorem copyRows_spec (t : Terminal) :
    Drawn t (copyRows t) ∧ ∀ i, (copyRows t).buffer i =
      if i < (vgaHeight - 1) * vgaWidth then t.buffer (i + vgaWidth) else t.buffer i := by
  refine foldl_rows_invariant (fun n t' => Drawn t t' ∧ ∀ i, t'.buffer i =
      if i < n then t.buffer (i + vgaWidth) else t.buffer i)
    ⟨Drawn.refl t, fun i => (if_neg (Nat.not_lt_zero i)).symm⟩ ?_
  rintro k hk x hx t' ⟨hdrawn, hcells⟩
  have hcell := cellIndex_lt hx (show k < vgaHeight by omega)
  rw [cellIndex_eq hx (show k < vgaHeight by omega)] at hcell
  refine ⟨hdrawn.setCell hcell _, fun i => ?_⟩
  have hsource : (k + 1) * vgaWidth + x = k * vgaWidth + x + vgaWidth := by
    rw [Nat.succ_mul]
    omega
  rw [buffer_setCell, hcells i, hcells, hsource]
  by_cases heq : i = k * vgaWidth + x
  · rw [if_pos heq, if_neg (by omega), if_pos (by omega), heq]
  · rw [if_neg heq]
    exact if_congr (by omega) rfl rfl

/-- The screen after a scroll: each row is the one below it, and the last is blank. -/
theorem terminalScroll_spec (t : Terminal) :
    Drawn { t with row := vgaHeight - 1 } (terminalScroll t) ∧
      ∀ i < vgaHeight * vgaWidth, (terminalScroll t).buffer i =
        if i < (vgaHeight - 1) * vgaWidth then t.buffer (i + vgaWidth)
        else vgaEntry 0x20 t.color := by
  obtain ⟨hcopy, hcopied⟩ := copyRows_spec t
  obtain ⟨hclear, hcleared⟩ :=
    terminalClearRow_spec (copyRows t) (show vgaHeight - 1 < vgaHeight by decide)
  refine ⟨(hcopy.trans hclear).withRow _, fun i hi => ?_⟩
  have hlast : (vgaHeight - 1) * vgaWidth + vgaWidth = vgaHeight * vgaWidth := by decide
  rw [terminalScroll]
  dsimp only
  rw [hcleared i, hcopy.color, hcopied i]
  by_cases hrow : i < (vgaHeight - 1) * vgaWidth
  · rw [if_neg (by omega), if_pos hrow, if_pos hrow]
  · rw [if_pos (by omega), if_neg hrow]

-- from here on the loops are used through the facts above
attribute [irreducible] terminalInitialize terminalClearRow copyRows

end Terminal

end Yotos
