import BinOs.FramebufferPictures
import BinOs.LineEditorRuns

/-! # The picture of the input line

Redrawing shows the prompt, the line and the cursor block as the editor has them,
whatever was on the screen before, and touches nothing else. -/
namespace BinOs.InputLinePicture
open CheckedBuffers MemoryStrings FramebufferDrawing ShellConsole LineEditor ConsoleCalls
open Pictures FramebufferPictures
open LineEditorRuns hiding Shows

/-- The colour `dx` columns right of the prompt's left edge and `dy` rows down. -/
def lineColor (s : Shell) (dx dy : ℤ) : UInt32 :=
  let ink := inkedAt (ascii "$ " ++ stringIn s.inputBuffer) dx dy
  if s.cursorVisible ≠ 0 ∧ dx / 8 = s.cursorPos + 2 then if ink then bgColor else cursorColor
  else if ink then textColor else bgColor

def promptX (s : Screen) : ℤ := getCursorX s - 16

/-- The rest of the line from the prompt on, without end to the right. -/
def inLine (s : Screen) (px py : ℤ) : Prop :=
  promptX s ≤ px ∧ getCursorY s ≤ py ∧ py < getCursorY s + 16

instance (s : Screen) (px py : ℤ) : Decidable (inLine s px py) :=
  inferInstanceAs (Decidable (_ ∧ _))

/-- A picture of the line, its colours by the distance from the prompt. -/
def line (s : Screen) (color : ℤ → ℤ → UInt32) : Picture UInt32 := fun px py =>
  if inLine s px py then some (color (px - promptX s) (py - getCursorY s)) else none

theorem text_alone (x y : ℤ) (str : List UInt8) (color : UInt32) (px py : ℤ) :
    text x y str (glyphAlone color) px py =
      if 0 ≤ px - x ∧ 0 ≤ py - y ∧ py - y < 16 ∧ inkedAt str (px - x) (py - y) then some color
      else none := by
  rw [text, inkedAt]
  by_cases hrow : 0 ≤ px - x ∧ 0 ≤ py - y ∧ py - y < 16
  · simp only [hrow, true_and, if_true]
    cases str[((px - x) / 8).toNat]? with
    | none => rfl
    | some c => rfl
  · rw [if_neg hrow, if_neg fun h => hrow ⟨h.1, h.2.1, h.2.2.1⟩]

section Line
variable {s : Shell} {t : List UInt8}

/-- The rectangle, the prompt and the text. -/
def bareLine (s : Shell) (t : List UInt8) : Screen :=
  drawString (promptX s.screen + 2 * charWidth) (getCursorY s.screen) t textColor
    (drawString (promptX s.screen) (getCursorY s.screen) (ascii "$ ") textColor
      (drawRect (promptX s.screen) (getCursorY s.screen) (getScreenWidth s.screen - promptX s.screen)
        lineHeight bgColor s.screen))

theorem bareLine_draws (hw : s.screen.fbWidth ≤ s.screen.fbPitch) (t : List UInt8) :
    Draws (line s.screen fun dx dy => if inkedAt (ascii "$ " ++ t) dx dy then textColor else bgColor)
      s.screen (bareLine s t) := by
  have hrect := drawRect_draws hw (promptX s.screen) (getCursorY s.screen)
    (getScreenWidth s.screen - promptX s.screen) lineHeight bgColor
  have hw₁ := width_le_of_draws hw hrect
  have hprompt := drawString_draws hw₁ (promptX s.screen) (getCursorY s.screen) (ascii "$ ") textColor
  have htext := drawString_draws (width_le_of_draws hw₁ hprompt) (promptX s.screen + 2 * charWidth)
    (getCursorY s.screen) t textColor
  have hstring : Draws (text (promptX s.screen) (getCursorY s.screen) (ascii "$ " ++ t)
      (glyphAlone textColor)) _ (bareLine s t) :=
    (hprompt.atop hw₁ htext).congr fun px py _ => text_append (ascii "$ ") t px py
  refine (hrect.atop hw hstring).congr fun px py hon => ?_
  have hright : px < s.screen.fbWidth := hon.2.1
  have hwidth : getScreenWidth s.screen = s.screen.fbWidth := rfl
  have hheight : lineHeight = 16 := rfl
  rw [Picture.atop, text_alone, line, rect, hwidth, hheight]
  by_cases hin : inLine s.screen px py
  · rw [if_pos hin]
    obtain ⟨hx, hy, hy'⟩ := hin
    rw [if_pos (by omega : promptX s.screen ≤ px ∧ px < promptX s.screen +
      (s.screen.fbWidth - promptX s.screen) ∧ getCursorY s.screen ≤ py ∧ py < getCursorY s.screen + 16)]
    have hrow : 0 ≤ px - promptX s.screen ∧ 0 ≤ py - getCursorY s.screen ∧
        py - getCursorY s.screen < 16 := by omega
    simp only [hrow, true_and]
    split
    · rfl
    · rfl
  · rw [if_neg hin, if_neg, if_neg]
    · rfl
    · rintro ⟨hx, -, hy, hy'⟩
      exact hin ⟨hx, hy, hy'⟩
    · rintro ⟨hx, hy, hy', -⟩
      exact hin ⟨by omega, by omega, by omega⟩

def cursorX (s : Shell) : ℤ := promptX s.screen + 2 * charWidth + s.cursorPos * charWidth

/-- The cursor's block and the character under it, if there is one. -/
def cursorBlock (s : Shell) (t : List UInt8) (screen : Screen) : Screen :=
  drawString (cursorX s) (getCursorY s.screen) t[s.cursorPos.toNat]?.toList bgColor
    (drawRect (cursorX s) (getCursorY s.screen) charWidth lineHeight cursorColor screen)

theorem inputLinePicture_eq (h : WellFormed s) (ht : Holds s.inputBuffer t)
    (hlen : s.inputIndex = t.length) :
    inputLinePicture s =
      some (if s.cursorVisible ≠ 0 then cursorBlock s t (bareLine s t) else bareLine s t) := by
  have h0 := h.cursor_nonneg
  have hle := h.index_le
  rw [inputLinePicture]
  simp only [ht.contents, Option.bind_eq_bind, Option.bind_some]
  by_cases hvisible : s.cursorVisible ≠ 0
  · rw [if_pos hvisible, if_pos hvisible]
    by_cases hcursor : s.cursorPos < s.inputIndex
    · have hget : s.cursorPos.toNat < t.length := by omega
      have hchar : elem s.inputBuffer s.cursorPos.toNat = t[s.cursorPos.toNat] := ht.bytes _ hget
      rw [if_pos hcursor, read_eq _ h0 (by omega), Option.bind_some,
        if_pos (ht.elem_ne_zero hget), hchar, cursorBlock, List.getElem?_eq_getElem hget]
      rfl
    · rw [if_neg hcursor, cursorBlock, List.getElem?_eq_none (by omega)]
      rfl
  · rw [if_neg hvisible, if_neg hvisible]
    rfl

theorem inkedAt_line (t : List UInt8) {dx : ℤ} {k : ℕ} (h : dx / 8 = k + 2) (dy : ℤ) :
    inkedAt (ascii "$ " ++ t) dx dy = t[k]?.any fun c => inked c dy (dx % 8) := by
  have hprompt : (ascii "$ ").length = 2 := rfl
  have hindex : (dx / 8).toNat = (ascii "$ ").length + k := by omega
  rw [inkedAt, hindex, List.getElem?_append_right (Nat.le_add_right _ _), Nat.add_sub_cancel_left]

theorem inkedAt_cell (c : Option UInt8) {dx : ℤ} (h0 : 0 ≤ dx) (h8 : dx < 8) (dy : ℤ) :
    inkedAt c.toList dx dy = c.any fun c => inked c dy dx := by
  have hindex : (dx / 8).toNat = 0 := by omega
  rw [inkedAt, hindex, Int.emod_eq_of_lt h0 h8]
  cases c with
  | none => rfl
  | some c => rfl

theorem inkedAt_beside (c : Option UInt8) {dx : ℤ} (h8 : 8 ≤ dx) (dy : ℤ) :
    inkedAt c.toList dx dy = false := by
  rw [inkedAt, List.getElem?_eq_none]
  · rfl
  · have hlen : c.toList.length ≤ 1 := by
      cases c with
      | none => exact Nat.zero_le 1
      | some c => exact Nat.le_refl 1
    omega

theorem cursorBlock_draws (hw : s.screen.fbWidth ≤ s.screen.fbPitch) (h0 : 0 ≤ s.cursorPos)
    (t : List UInt8) {screen : Screen} {color : ℤ → ℤ → UInt32}
    (hline : Draws (line s.screen color) s.screen screen) :
    Draws (line s.screen fun dx dy => if dx / 8 = s.cursorPos + 2 then
        if inkedAt (ascii "$ " ++ t) dx dy then bgColor else cursorColor else color dx dy)
      s.screen (cursorBlock s t screen) := by
  have hw₁ := width_le_of_draws hw hline
  have hrect := drawRect_draws hw₁ (cursorX s) (getCursorY s.screen) charWidth lineHeight cursorColor
  have hchar := drawString_draws (width_le_of_draws hw₁ hrect) (cursorX s) (getCursorY s.screen)
    t[s.cursorPos.toNat]?.toList bgColor
  refine (hline.atop hw (hrect.atop hw₁ hchar)).congr fun px py _ => ?_
  have hx : cursorX s = promptX s.screen + 16 + s.cursorPos * 8 := rfl
  have hwidth : charWidth = 8 := rfl
  have hheight : lineHeight = 16 := rfl
  rw [Picture.atop, Picture.atop, text_alone, line, line, rect, hwidth, hheight]
  by_cases hin : inLine s.screen px py
  · obtain ⟨hpx, hpy, hpy'⟩ := id hin
    have hrow : 0 ≤ py - getCursorY s.screen ∧ py - getCursorY s.screen < 16 := by omega
    rw [if_pos hin, if_pos hin]
    by_cases hcell : (px - promptX s.screen) / 8 = s.cursorPos + 2
    · -- inside the block: its character is the one the line has there
      have hd : 0 ≤ px - cursorX s ∧ px - cursorX s < 8 := by omega
      have hcol : (px - promptX s.screen) % 8 = px - cursorX s := by omega
      have hk : (px - promptX s.screen) / 8 = (s.cursorPos.toNat : ℤ) + 2 := by omega
      have hrect : cursorX s ≤ px ∧ px < cursorX s + 8 ∧
          getCursorY s.screen ≤ py ∧ py < getCursorY s.screen + 16 := by omega
      rw [if_pos hcell, inkedAt_line t hk, hcol, inkedAt_cell _ hd.1 hd.2, if_pos hrect]
      simp only [hd.1, hrow, true_and]
      split
      · rfl
      · rfl
    · rw [if_neg hcell, if_neg, if_neg (by omega)]
      · rfl
      · rintro ⟨hleft, -, -, hink⟩
        rw [inkedAt_beside _ (by omega)] at hink
        cases hink
  · have hrows : ¬(getCursorY s.screen ≤ py ∧ py < getCursorY s.screen + 16) ∨ px < cursorX s := by
      by_contra hno
      exact hin ⟨by omega, by omega, by omega⟩
    rw [if_neg hin, if_neg hin, if_neg (by omega), if_neg (by omega)]
    rfl

theorem wellFormed_line (h : WellFormed s) :
    ∃ t, Holds s.inputBuffer t ∧ s.inputIndex = (t.length : ℤ) := by
  have h0 := h.cursor_nonneg
  have hle := h.cursor_le
  have hmax := h.index_le
  let t : List UInt8 := (List.range s.inputIndex.toNat).map fun i => elem s.inputBuffer i
  have hlen : t.length = s.inputIndex.toNat := by rw [List.length_map, List.length_range]
  refine ⟨t, ⟨by omega, fun i hi => ?_, fun c hc => ?_, ?_⟩, by omega⟩
  · rw [List.getElem_map, List.getElem_range]
  · obtain ⟨i, hi, rfl⟩ := List.mem_map.mp hc
    have hi' := List.mem_range.mp hi
    obtain ⟨c, hread, hne, -⟩ := h.printable i (by omega) (by omega)
    rw [read_natCast _ (by omega)] at hread
    rwa [Option.some_inj.mp hread]
  · have hzero := h.terminator
    rw [read_eq _ (by omega) (by omega), ← hlen] at hzero
    exact Option.some_inj.mp hzero

theorem drawInputLine_draws (h : WellFormed s) (hw : s.screen.fbWidth ≤ s.screen.fbPitch) :
    ∃ screen, shellDrawInputLine s = some { s with screen } ∧
      Draws (line s.screen (lineColor s)) s.screen screen := by
  obtain ⟨t, ht, hlen⟩ := wellFormed_line h
  have hbare := bareLine_draws hw t
  refine ⟨_, by rw [shellDrawInputLine, inputLinePicture_eq h ht hlen]; rfl, ?_⟩
  by_cases hvisible : s.cursorVisible ≠ 0
  · rw [if_pos hvisible]
    refine (cursorBlock_draws hw h.cursor_nonneg t hbare).congr fun px py _ => ?_
    simp only [line, lineColor, stringIn_eq ht, hvisible, true_and, ne_eq, not_false_eq_true]
  · rw [if_neg hvisible]
    refine hbare.congr fun px py _ => ?_
    simp only [line, lineColor, stringIn_eq ht, hvisible, false_and, if_false]

theorem wellFormed_screen (h : WellFormed s) (screen : Screen) : WellFormed { s with screen } :=
  ⟨h.cursor_nonneg, h.cursor_le, h.index_le, h.terminator, h.printable, h.historyIndex,
    h.historyCurrent, h.entries, h.command⟩

theorem line_shows {s t : Screen} {color : ℤ → ℤ → UInt32} (hw : s.fbWidth ≤ s.fbPitch)
    (h : Draws (line s color) s t) :
    Shows (inLine s) (fun px py => color (px - promptX s) (py - getCursorY s)) s t :=
  h.shows hw fun _ _ => rfl

/-- The line shown is a function of the editor's state alone: it is the same over any
earlier contents of the screen, so a second redrawing changes nothing. -/
theorem input_line_shown (h : WellFormed s) (hw : s.screen.fbWidth ≤ s.screen.fbPitch) :
    ∃ screen, shellDrawInputLine s = some { s with screen } ∧
      Shows (inLine s.screen)
        (fun px py => lineColor s (px - promptX s.screen) (py - getCursorY s.screen))
        s.screen screen ∧
      (∀ fbPtr, ∃ screen', shellDrawInputLine { s with screen := { s.screen with fbPtr } } =
          some { s with screen := screen' } ∧
        ∀ px py, 0 ≤ px → px < s.screen.fbWidth → 0 ≤ py → py < s.screen.fbHeight →
          inLine s.screen px py → screen'.fbPtr (py * s.screen.fbPitch + px) =
            screen.fbPtr (py * s.screen.fbPitch + px)) ∧
      shellDrawInputLine { s with screen } = some { s with screen } := by
  obtain ⟨screen, hdraw, hpicture⟩ := drawInputLine_draws h hw
  have hshown := line_shows hw hpicture
  refine ⟨screen, hdraw, hshown, fun fbPtr => ?_, ?_⟩
  · obtain ⟨screen', hdraw', hpicture'⟩ :=
      drawInputLine_draws (wellFormed_screen h { s.screen with fbPtr }) hw
    refine ⟨screen', hdraw', fun px py h0 hx hy hh hin => ?_⟩
    have hshown' := line_shows (s := { s.screen with fbPtr }) hw hpicture'
    exact (hshown'.shown px py h0 hx hy hh hin).trans (hshown.shown px py h0 hx hy hh hin).symm
  · obtain ⟨screen', hdraw', hpicture'⟩ :=
      drawInputLine_draws (wellFormed_screen h screen) (width_le_of_draws hw hpicture)
    have hline := congrArg (fun screen => line screen (lineColor s)) hpicture.rest
    have hagain : Draws (line s.screen (lineColor s)) screen screen' := hline ▸ hpicture'
    rw [hdraw', hpicture.redraw hagain]

/-- `ab` with the cursor on `b`, at the left edge of a screen that is too narrow for it. -/
def narrowLine : Shell :=
  { shellAfter [.input 97, .input 98, .moveCursorLeft] with screen := narrowScreen }

theorem narrowLine_wellFormed : WellFormed narrowLine := by
  obtain ⟨a, ha⟩ := (shellAfter_reachable [.input 97, .input 98, .moveCursorLeft]).represents
  exact wellFormed_screen (represents_wellFormed ha) narrowScreen

theorem input_line_shown_narrow :
    ∃ screen, shellDrawInputLine narrowLine = some { narrowLine with screen } ∧
      Shows (inLine narrowLine.screen)
        (fun px py => lineColor narrowLine (px - promptX narrowLine.screen)
          (py - getCursorY narrowLine.screen)) narrowLine.screen screen ∧
      (∀ fbPtr, ∃ screen', shellDrawInputLine
          { narrowLine with screen := { narrowLine.screen with fbPtr } } =
            some { narrowLine with screen := screen' } ∧
        ∀ px py, 0 ≤ px → px < narrowLine.screen.fbWidth → 0 ≤ py →
          py < narrowLine.screen.fbHeight → inLine narrowLine.screen px py →
          screen'.fbPtr (py * narrowLine.screen.fbPitch + px) =
            screen.fbPtr (py * narrowLine.screen.fbPitch + px)) ∧
      shellDrawInputLine { narrowLine with screen } = some { narrowLine with screen } :=
  input_line_shown narrowLine_wellFormed (by decide)

end Line

end BinOs.InputLinePicture
