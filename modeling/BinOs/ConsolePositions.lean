import BinOs.ConsoleLayout

/-! # The cursor stays on the screen

From a position on a line of the screen everything the console prints is whole cells on the
screen, and the cursor ends on a line again. -/
namespace BinOs.ConsoleLayout
open BoundedLoops FramebufferDrawing ShellConsole

/-- A screen of at least three columns and one line, and a line of it. -/
structure OnScreen (l : Layout) : Prop where
  width_ge : 25 ≤ l.width
  width_le : l.width ≤ 65535
  height_ge : 17 ≤ l.height
  height_le : l.height ≤ 65535
  y_nonneg : 0 ≤ l.y
  y_room : l.y + 16 < l.height

/-- On a line, at a column with room for the cell there. -/
structure Fits (l : Layout) : Prop extends OnScreen l where
  x_nonneg : 0 ≤ l.x
  x_cell : l.x % 8 = 0
  x_room : l.x + 8 < l.width

def Layout.newline (l : Layout) : Layout :=
  { l with x := 0, y := if l.y + 16 ≥ l.height - 16 then l.y else l.y + 16 }

theorem OnScreen.newline {l : Layout} (h : OnScreen l) : Fits l.newline := by
  obtain ⟨hw, hw', hh, hh', hy, hroom⟩ := h
  have hline : 0 ≤ l.newline.y ∧ l.newline.y + 16 < l.height := by
    rw [Layout.newline]
    dsimp only
    split
    · omega
    · omega
  have hcolumn : (0 : ℤ) + 8 < l.width := by omega
  exact ⟨⟨hw, hw', hh, hh', hline.1, hline.2⟩, Int.le_refl 0, rfl, hcolumn⟩

variable {s : Screen}

variable (color : UInt32)

theorem shellPutChar_layout (h : Fits (layout s)) (c : UInt8) :
    layout (shellPutChar c color s) = { layout s with x := getCursorX s + 8 } := by
  obtain ⟨t, ht, hput⟩ : ∃ t, layout t = layout s ∧
      shellPutChar c color s = moveCursorRight (UInt16.ofInt charWidth) t :=
    ⟨_, layout_drawAsciiChar .., rfl⟩
  have hx : getCursorX t = getCursorX s := congrArg Layout.x ht
  have hw : t.fbWidth = s.fbWidth := congrArg Layout.width ht
  have hroom : getCursorX t + (UInt16.ofInt charWidth).toNat < t.fbWidth := by
    rw [hx, hw]
    exact h.x_room
  rw [hput, layout_moveCursorRight hroom (hw ▸ h.width_le), ht, hx]
  rfl

/-- A cell further on a line, if there is a cell to the right of it still. -/
theorem Fits.right (h : Fits (layout s)) (c : UInt8) :
    OnScreen (layout (shellPutChar c color s)) ∧
      (¬ atLineEnd (shellPutChar c color s) → Fits (layout (shellPutChar c color s))) := by
  have hput := shellPutChar_layout color h c
  have hx : getCursorX (shellPutChar c color s) = getCursorX s + 8 := congrArg Layout.x hput
  have hw : getScreenWidth (shellPutChar c color s) = s.fbWidth := congrArg Layout.width hput
  have hon : OnScreen (layout (shellPutChar c color s)) := by
    rw [hput]
    exact ⟨h.width_ge, h.width_le, h.height_ge, h.height_le, h.y_nonneg, h.y_room⟩
  refine ⟨hon, fun hend => ?_⟩
  have hcharWidth : charWidth = 8 := rfl
  rw [atLineEnd, hx, hw, hcharWidth] at hend
  have hcell : getCursorX s % 8 = 0 := h.x_cell
  have hnonneg : 0 ≤ getCursorX s := h.x_nonneg
  have hfit : 0 ≤ getCursorX s + 8 ∧ (getCursorX s + 8) % 8 = 0 ∧
      getCursorX s + 8 + 8 < s.fbWidth := by omega
  refine ⟨hon, ?_, ?_, ?_⟩
  · rw [hput]
    exact hfit.1
  · rw [hput]
    exact hfit.2.1
  · rw [hput]
    exact hfit.2.2

/-- A character drawn at such a cursor is whole: no pixel of it is left out. -/
theorem drawChar_whole (h : (ConsoleEvent.glyph (layout s)).Good) (charBitmap : Vector UInt8 16) :
    drawChar (getCursorX s) (getCursorY s) charBitmap color s =
      forUp 0 FontTable.fontHeight (fun row t => forUp 0 FontTable.fontWidth (fun col u =>
        if CheckedBuffers.elem charBitmap row.toNat &&& ((0x80 : UInt8) >>> UInt8.ofInt col) ≠ 0 then
          plot ((getCursorY s + row) * u.fbPitch + (getCursorX s + col)) color u
        else u) t) s := by
  obtain ⟨hx, hy⟩ := h
  have hxnonneg : 0 ≤ getCursorX s := Int.natCast_nonneg _
  have hynonneg : 0 ≤ getCursorY s := Int.natCast_nonneg _
  have hheight : FontTable.fontHeight = 16 := rfl
  have hwidth : FontTable.fontWidth = 8 := rfl
  simp only [layout] at hx hy
  rw [drawChar]
  apply forUp_congr layout
  · intro row t
    apply forUp_keeps
    intro col u
    split
    · rfl
    · rfl
  · intro row t hrow hrow' ht
    apply forUp_congr layout
    · intro col u
      split
      · rfl
      · rfl
    · intro col u hcol hcol' hu
      have hu' : layout u = layout s := hu.trans ht
      have hw : u.fbWidth = s.fbWidth := congrArg Layout.width hu'
      have hh : u.fbHeight = s.fbHeight := congrArg Layout.height hu'
      have hinside : getCursorX s + col ≥ 0 ∧ getCursorX s + col < u.fbWidth ∧
          getCursorY s + row ≥ 0 ∧ getCursorY s + row < u.fbHeight := by omega
      dsimp only
      rw [if_pos hinside]

end BinOs.ConsoleLayout
