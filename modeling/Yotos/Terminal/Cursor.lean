import Mathlib.Data.List.Infix
import Yotos.Terminal.Basic

/-!
# The cursor of the terminal

`terminal_putchar` moves the cursor forward and wraps or scrolls at the end of a row, and
moves it back for a backspace, across the start of a row too. Only a backspace in the first
cell leaves the screen: there `terminal_row--` wraps around.
-/

namespace Yotos

namespace Terminal

/-- The cursor is on the screen, and so is every cell written so far. -/
structure OnScreen (t : Terminal) : Prop where
  row_lt : t.row < vgaHeight
  column_lt : t.column < vgaWidth
  written : ∀ i ∈ t.written, i < vgaHeight * vgaWidth

/-- The cursor is in the first cell. -/
def AtHome (t : Terminal) : Prop := t.row = 0 ∧ t.column = 0

instance (t : Terminal) : Decidable (AtHome t) :=
  inferInstanceAs (Decidable (t.row = 0 ∧ t.column = 0))

variable {t t' : Terminal} {c : UInt8} {x y : ℕ}

theorem Drawn.onScreen (h : Drawn t t') (ht : OnScreen t) : OnScreen t' where
  row_lt := h.row ▸ ht.row_lt
  column_lt := h.column ▸ ht.column_lt
  written i hi := (h.written i hi).elim (ht.written i) id

theorem drawn_terminalPutentryat (t : Terminal) (c color : UInt8) (hx : x < vgaWidth)
    (hy : y < vgaHeight) : Drawn t (terminalPutentryat t c color x y) :=
  (Drawn.refl t).setCell (cellIndex_lt hx hy) _

theorem onScreen_nextRow (hrow : t.row < vgaHeight)
    (hwritten : ∀ i ∈ t.written, i < vgaHeight * vgaWidth) : OnScreen (nextRow t) := by
  have hmod : (t.row + 1) % 2 ^ 32 = t.row + 1 := by
    unfold vgaHeight at hrow
    exact Nat.mod_eq_of_lt (by omega)
  rw [nextRow, hmod]
  split_ifs with hlast
  · exact (terminalScroll_spec _).1.onScreen ⟨Nat.lt_succ_self 24, Nat.zero_lt_succ 79, hwritten⟩
  · exact ⟨Nat.lt_of_le_of_ne hrow hlast, Nat.zero_lt_succ 79, hwritten⟩

/-- A character keeps the cursor on the screen unless it is a backspace in the first cell. -/
theorem OnScreen.terminalPutchar (h : OnScreen t) (hc : c = 0x08 → ¬ AtHome t) :
    OnScreen (terminalPutchar t c) := by
  have hrow := h.row_lt
  have hcolumn := h.column_lt
  rw [Terminal.terminalPutchar]
  split_ifs with hnewline hbackspace hback
  · exact onScreen_nextRow hrow h.written
  · have hlt : t.column - 1 < vgaWidth := by omega
    exact (drawn_terminalPutentryat _ _ _ hlt hrow).onScreen ⟨hrow, hlt, h.written⟩
  · have hpos : t.row ≠ 0 := fun hzero => hc hbackspace ⟨hzero, by omega⟩
    have hmod : (t.row + 2 ^ 32 - 1) % 2 ^ 32 = t.row - 1 := by
      unfold vgaHeight at hrow
      omega
    have hlt : t.row - 1 < vgaHeight := by omega
    rw [hmod]
    exact (drawn_terminalPutentryat _ _ _ (Nat.lt_succ_self 79) hlt).onScreen
      ⟨hlt, Nat.lt_succ_self 79, h.written⟩
  · have hput := (drawn_terminalPutentryat t c t.color hcolumn hrow).onScreen h
    have hmod : (t.column + 1) % 2 ^ 32 = t.column + 1 := by
      unfold vgaWidth at hcolumn
      exact Nat.mod_eq_of_lt (by omega)
    have hsame : (terminalPutentryat t c t.color t.column t.row).column = t.column := rfl
    dsimp only
    rw [hsame, hmod]
    split_ifs with hwrap
    · exact onScreen_nextRow hput.row_lt hput.written
    · exact ⟨hput.row_lt, Nat.lt_of_le_of_ne hcolumn hwrap, hput.written⟩

/-- A backspace in the first cell takes the row to the largest `size_t`. -/
theorem not_onScreen_of_atHome (h : AtHome t) : ¬ OnScreen (terminalPutchar t 0x08) := by
  obtain ⟨hrow, hcolumn⟩ := h
  have hwrap : (terminalPutchar t 0x08).row = 2 ^ 32 - 1 := by
    rw [terminalPutchar, if_neg (by decide), if_pos rfl, hrow, hcolumn]
    rfl
  intro hscreen
  have hlt := hscreen.row_lt
  rw [hwrap] at hlt
  exact absurd hlt (by decide)

theorem onScreen_terminalInitialize (row column : ℕ) (color : UInt8) (buffer : ℕ → UInt16) :
    OnScreen (terminalInitialize ⟨row, column, color, buffer, []⟩) :=
  (terminalInitialize_spec _).1.onScreen
    ⟨Nat.zero_lt_succ 24, Nat.zero_lt_succ 79, fun _ hi => absurd hi List.not_mem_nil⟩

theorem terminalWrite_concat (t : Terminal) (data : List UInt8) (c : UInt8) :
    terminalWrite t (data ++ [c]) = terminalPutchar (terminalWrite t data) c := by
  rw [terminalWrite, List.foldl_append]
  rfl

/-- After `terminal_initialize`, with any state before it, the cursor stays on the screen
and every cell written lies in the buffer, after each character, exactly when no backspace
comes while the cursor is in the first cell. -/
theorem onScreen_iff_no_backspace_atHome (row column : ℕ) (color : UInt8) (buffer : ℕ → UInt16)
    (data : List UInt8) :
    (∀ pre, pre <+: data →
        OnScreen (terminalWrite (terminalInitialize ⟨row, column, color, buffer, []⟩) pre)) ↔
      ∀ pre, pre ++ [0x08] <+: data →
        ¬ AtHome (terminalWrite (terminalInitialize ⟨row, column, color, buffer, []⟩) pre) := by
  constructor
  · intro hscreen pre hpre hhome
    have hnext := hscreen _ hpre
    rw [terminalWrite_concat] at hnext
    exact not_onScreen_of_atHome hhome hnext
  · intro hsafe pre hpre
    induction pre using List.reverseRecOn with
    | nil => exact onScreen_terminalInitialize row column color buffer
    | append_singleton pre c ih =>
        rw [terminalWrite_concat]
        refine (ih ((List.prefix_append pre [c]).trans hpre)).terminalPutchar ?_
        rintro rfl
        exact hsafe pre hpre

/-- One backspace on the fresh screen. -/
theorem not_onScreen_backspace :
    ¬ ∀ pre, pre <+: [0x08] →
      OnScreen (terminalWrite (terminalInitialize ⟨0, 0, 0, fun _ => 0, []⟩) pre) := by
  intro hscreen
  have hiff := (onScreen_iff_no_backspace_atHome 0 0 0 (fun _ => 0) [0x08]).1 hscreen
  have hdrawn := (terminalInitialize_spec ⟨0, 0, 0, fun _ => 0, []⟩).1
  exact hiff [] (List.prefix_refl _) ⟨hdrawn.row, hdrawn.column⟩

end Terminal

end Yotos
