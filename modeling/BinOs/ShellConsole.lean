import BinOs.FramebufferDrawing
import BinOs.MemoryStrings

/-! # The shell's text console

Text is drawn at the cursor, one cell a character, and the picture scrolls by one
line when the cursor leaves the last one. -/
namespace BinOs.ShellConsole
open BoundedLoops MemoryStrings FontTable FramebufferDrawing

abbrev lineHeight : ℤ := 16
abbrev charWidth : ℤ := 8
abbrev textColor : UInt32 := 0xFFFFFFFF
abbrev bgColor : UInt32 := 0xFF000000
abbrev cursorColor : UInt32 := 0xFF00FF00
abbrev errorColor : UInt32 := 0xFFFF0000
abbrev successColor : UInt32 := 0xFF00FF00

/-- `fb_pitch / sizeof(uint32_t)`: the division is an unsigned 64-bit one. -/
def scrollPitch (s : Screen) : ℤ := toInt32 ((s.fbPitch % 2 ^ 64) / 4)

def shellScrollUp (s : Screen) : Screen :=
  let pitch := scrollPitch s
  let s := forUp 0 (s.fbHeight - lineHeight) (fun y s =>
    forUp 0 s.fbWidth (fun x s =>
      plot (y * pitch + x) (s.fbPtr ((y + lineHeight) * pitch + x)) s) s) s
  let s := forUp (s.fbHeight - lineHeight) s.fbHeight (fun y s =>
    forUp 0 s.fbWidth (fun x s => plot (y * pitch + x) bgColor s) s) s
  moveCursorUp (UInt16.ofInt lineHeight) s

def shellNewline (s : Screen) : Screen :=
  let s := moveCursorTo 0 (UInt16.ofInt (getCursorY s + lineHeight)) s
  if getCursorY s ≥ getScreenHeight s - lineHeight then shellScrollUp s else s

/-- `draw_ascii_char(get_cursor_x(), get_cursor_y(), c, color); move_cursor_right(char_width)` -/
def shellPutChar (c : UInt8) (color : UInt32) (s : Screen) : Screen :=
  moveCursorRight (UInt16.ofInt charWidth) (drawAsciiChar (getCursorX s) (getCursorY s) c color s)

def atLineEnd (s : Screen) : Prop := getCursorX s ≥ getScreenWidth s - charWidth

instance (s : Screen) : Decidable (atLineEnd s) := inferInstanceAs (Decidable (_ ≤ _))

/-- The loop over the spaces of a tab, which stops at the end of the line. -/
def shellTab (color : UInt32) : ℕ → Screen → Screen
  | 0, s => s
  | spaces + 1, s =>
    let s := shellPutChar 32 color s
    if atLineEnd s then shellNewline s else shellTab color spaces s

def shellPrintColor (text : List UInt8) (color : UInt32) (s : Screen) : Screen :=
  match text with
  | [] => s
  | c :: text => shellPrintColor text color <|
    if c = 10 then shellNewline s
    else if c = 13 then moveCursorTo 0 s.cursorPositionY s
    else if c = 9 then shellTab color (4 - getCursorX s / charWidth % 4).toNat s
    else
      let s := shellPutChar c color s
      if atLineEnd s then shellNewline s else s

def shellPrint (text : List UInt8) : Screen → Screen := shellPrintColor text textColor

def shellSuccess (text : List UInt8) (s : Screen) : Screen :=
  shellPrint (ascii "\n") (shellPrintColor text successColor s)

def shellPrintPrompt (s : Screen) : Screen :=
  moveCursorRight (UInt16.ofInt (2 * charWidth))
    (drawString (getCursorX s) (getCursorY s) (ascii "$ ") textColor s)

def welcomeText : List UInt8 :=
  ascii "Binbows Installer v1.2\nType 'help' for available commands.\n\n"

def shellPrintWelcome : Screen → Screen := shellPrint welcomeText

def helpText : List UInt8 := ascii (
  "Available commands:\n" ++
  "  hello [name]  - Display greeting\n" ++
  "  help          - Show this help message\n" ++
  "  clear         - Clear the screen\n" ++
  "  echo <text>   - Echo text to screen\n" ++
  "  history       - Show command history\n" ++
  "  uptime        - Show system uptime\n" ++
  "  exit          - Exit the shell\n" ++
  "\nNavigation:\n" ++
  "  Ctrl+C        - Cancel current input\n" ++
  "  Ctrl+L        - Clear screen\n" ++
  "  Ctrl+A        - Move to beginning of line\n" ++
  "  Ctrl+E        - Move to end of line\n" ++
  "  Ctrl+K        - Kill to end of line\n" ++
  "  Ctrl+U        - Kill entire line\n" ++
  "  Ctrl+W        - Kill word backward\n" ++
  "  Left/Right    - Move cursor\n" ++
  "  Home/End      - Move to line start/end\n")

def cmdHelp : Screen → Screen := shellPrint helpText

def cmdClear (s : Screen) : Screen := moveCursorTo 0 0 (clearScreen bgColor s)

def cmdUptime : Screen → Screen :=
  shellPrint (ascii "System uptime: Unknown (uptime not implemented)\n")

def cmdExit : Screen → Screen := shellSuccess (ascii "Goodbye!")

end BinOs.ShellConsole
