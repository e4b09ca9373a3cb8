import BinOs.ShellConsole
import Mathlib.Logic.Function.Iterate

/-! # Where the console prints

Printing is followed by a list of events: each glyph drawn, each tab and each new line,
with the cursor before and after. They depend on the cursor and the screen's size alone. -/
namespace BinOs.ConsoleLayout
open BoundedLoops FramebufferDrawing ShellConsole

structure Layout where
  x : ℤ
  y : ℤ
  width : ℤ
  height : ℤ
  deriving DecidableEq

def layout (s : Screen) : Layout := ⟨getCursorX s, getCursorY s, s.fbWidth, s.fbHeight⟩

section Drawing
variable (s : Screen)

theorem layout_drawChar (x y : ℤ) (charBitmap : Vector UInt8 16) (color : UInt32) :
    layout (drawChar x y charBitmap color s) = layout s := by
  apply forUp_keeps
  intro row t
  apply forUp_keeps
  intro col u
  split
  · dsimp only
    split
    · rfl
    · rfl
  · rfl

theorem layout_drawAsciiChar (x y : ℤ) (c : UInt8) (color : UInt32) :
    layout (drawAsciiChar x y c color s) = layout s := by
  rw [drawAsciiChar]
  split
  · exact layout_drawChar ..
  · rfl

theorem layout_moveCursorRight {s : Screen} {amount : UInt16}
    (h : getCursorX s + amount.toNat < s.fbWidth) (hw : s.fbWidth ≤ 65535) :
    layout (moveCursorRight amount s) = { layout s with x := getCursorX s + amount.toNat } := by
  have hsum : ((s.cursorPositionX + amount).toNat : ℤ) = getCursorX s + amount.toNat := by
    rw [getCursorX] at h ⊢
    rw [UInt16.toNat_add, Nat.mod_eq_of_lt (by omega)]
    omega
  rw [moveCursorRight, if_pos h, ← hsum]
  rfl

end Drawing

inductive ConsoleEvent
  | glyph (before : Layout)
  | prompt (before : Layout)
  | tab (before after : Layout)
  | newline (before after : Layout) (scrolls : ℕ)

/-- How often `shell_newline` scrolls. -/
def newlineScrolls (s : Screen) : ℕ :=
  let s := moveCursorTo 0 (UInt16.ofInt (getCursorY s + lineHeight)) s
  if getCursorY s ≥ getScreenHeight s - lineHeight then 1 else 0

def newlineEvents (s : Screen) : List ConsoleEvent :=
  [.newline (layout s) (layout (shellNewline s)) (newlineScrolls s)]

/-- The events of one character, and of the line's end behind it. -/
def putEvents (c : UInt8) (color : UInt32) (s : Screen) : List ConsoleEvent :=
  .glyph (layout s) ::
    if atLineEnd (shellPutChar c color s) then newlineEvents (shellPutChar c color s) else []

def tabEvents (color : UInt32) : ℕ → Screen → List ConsoleEvent
  | 0, _ => []
  | spaces + 1, s => putEvents 32 color s ++
    if atLineEnd (shellPutChar 32 color s) then []
    else tabEvents color spaces (shellPutChar 32 color s)

def tabSpaces (s : Screen) : ℕ := (4 - getCursorX s / charWidth % 4).toNat

/-- One pass of the loop of `shell_print_color`. -/
def shellPrintChar (c : UInt8) (color : UInt32) (s : Screen) : Screen :=
  if c = 10 then shellNewline s
  else if c = 13 then moveCursorTo 0 s.cursorPositionY s
  else if c = 9 then shellTab color (tabSpaces s) s
  else
    let s := shellPutChar c color s
    if atLineEnd s then shellNewline s else s

def charEvents (c : UInt8) (color : UInt32) (s : Screen) : List ConsoleEvent :=
  if c = 10 then newlineEvents s
  else if c = 13 then []
  else if c = 9 then
    tabEvents color (tabSpaces s) s ++ [.tab (layout s) (layout (shellTab color (tabSpaces s) s))]
  else putEvents c color s

def printEvents (text : List UInt8) (color : UInt32) (s : Screen) : List ConsoleEvent :=
  match text with
  | [] => []
  | c :: text => charEvents c color s ++ printEvents text color (shellPrintChar c color s)

/-- What is asked of an event. A cell is 8 wide and 16 high. -/
def ConsoleEvent.Good : ConsoleEvent → Prop
  | .glyph before => before.x + 8 ≤ before.width ∧ before.y + 16 ≤ before.height
  | .prompt before => before.x = 0
  | .tab before after => after.x / 8 % 4 = 0 ∧ after.x % 8 = 0 ∧
      (before.x < after.x ∧ after.y = before.y ∨
        after.x = 0 ∧ (after.y = before.y + 16 ∨ after.y = before.y))
  | .newline before after scrolls => after.x = 0 ∧
      (after.y = before.y + 16 ∧ scrolls = 0 ∨ after.y = before.y ∧ scrolls = 1)

section Congruence
variable {s t : Screen} (color : UInt32)

end Congruence

end BinOs.ConsoleLayout
