import BinOs.BoundedLoops
import BinOs.CheckedBuffers
import BinOs.FontTable
import Mathlib.Logic.Function.Basic

/-! # Drawing on the framebuffer

`fbPtr` gives every 32-bit word addressed from the framebuffer's start, before and
after it too, so that a stray write is visible. `int` arithmetic is exact: the
coordinates of a screen stay far from its bounds. The cursor is two 16-bit words. -/
namespace BinOs.FramebufferDrawing
open BoundedLoops CheckedBuffers FontTable

structure Screen where
  fbPtr : ℤ → UInt32
  fbWidth : ℤ
  fbHeight : ℤ
  fbPitch : ℤ
  cursorPositionX : UInt16
  cursorPositionY : UInt16

/-- Conversion to a 32-bit `int`. -/
def toInt32 (x : ℤ) : ℤ := Int.bmod x (2 ^ 32)

/-- The fields of a boot framebuffer that the kernel reads; `pitch` counts bytes. -/
structure LimineFramebuffer where
  address : ℤ → UInt32
  width : UInt64
  height : UInt64
  pitch : UInt64

/-- Without a framebuffer the kernel halts. From here on the pitch counts pixels. -/
def initFramebuffer (response : Option (List LimineFramebuffer)) (s : Screen) : Option Screen :=
  match response with
  | some (framebuffer :: _) => some { s with
      fbPtr := framebuffer.address
      fbWidth := toInt32 framebuffer.width.toNat
      fbHeight := toInt32 framebuffer.height.toNat
      fbPitch := toInt32 (framebuffer.pitch / 4).toNat }
  | _ => none

def getCursorX (s : Screen) : ℤ := s.cursorPositionX.toNat
def getCursorY (s : Screen) : ℤ := s.cursorPositionY.toNat
def getScreenWidth (s : Screen) : ℤ := s.fbWidth
def getScreenHeight (s : Screen) : ℤ := s.fbHeight

/-- The sum is compared as an `int` and stored in 16 bits; likewise below. -/
def moveCursorRight (amount : UInt16) (s : Screen) : Screen :=
  if getCursorX s + amount.toNat < s.fbWidth then
    { s with cursorPositionX := s.cursorPositionX + amount }
  else { s with cursorPositionX := UInt16.ofInt (s.fbWidth - 1) }

def moveCursorUp (amount : UInt16) (s : Screen) : Screen :=
  if s.cursorPositionY ≥ amount then { s with cursorPositionY := s.cursorPositionY - amount }
  else { s with cursorPositionY := 0 }

def moveCursorDown (amount : UInt16) (s : Screen) : Screen :=
  if getCursorY s + amount.toNat < s.fbHeight then
    { s with cursorPositionY := s.cursorPositionY + amount }
  else { s with cursorPositionY := UInt16.ofInt (s.fbHeight - 1) }

def moveCursorLeft (amount : UInt16) (s : Screen) : Screen :=
  if s.cursorPositionX ≥ amount then { s with cursorPositionX := s.cursorPositionX - amount }
  else { s with cursorPositionX := 0 }

def moveCursorTo (x y : UInt16) (s : Screen) : Screen :=
  { s with
    cursorPositionX := if (x.toNat : ℤ) < s.fbWidth then x else s.cursorPositionX
    cursorPositionY := if (y.toNat : ℤ) < s.fbHeight then y else s.cursorPositionY }

/-- The product is an `int`, and the amount that is passed on has 16 bits. -/
def moveCursorByChars (chars : ℤ) (s : Screen) : Screen :=
  if chars > 0 then moveCursorRight (UInt16.ofInt (chars * fontWidth)) s
  else if chars < 0 then moveCursorLeft (UInt16.ofInt (-chars * fontWidth)) s
  else s

def moveCursorByLines (lines : ℤ) (s : Screen) : Screen :=
  if lines > 0 then moveCursorDown (UInt16.ofInt (lines * fontHeight)) s
  else if lines < 0 then moveCursorUp (UInt16.ofInt (-lines * fontHeight)) s
  else s

/-- `fb_ptr[i] = color` -/
def plot (i : ℤ) (color : UInt32) (s : Screen) : Screen :=
  { s with fbPtr := Function.update s.fbPtr i color }

def drawChar (x y : ℤ) (charBitmap : Vector UInt8 16) (color : UInt32) (s : Screen) : Screen :=
  forUp 0 fontHeight (fun row s =>
    let byte := elem charBitmap row.toNat
    forUp 0 fontWidth (fun col s =>
      if byte &&& ((0x80 : UInt8) >>> UInt8.ofInt col) ≠ 0 then
        let px := x + col
        let py := y + row
        if px ≥ 0 ∧ px < s.fbWidth ∧ py ≥ 0 ∧ py < s.fbHeight then
          plot (py * s.fbPitch + px) color s
        else s
      else s) s) s

def drawCharWithBg (x y : ℤ) (charBitmap : Vector UInt8 16) (fgColor bgColor : UInt32) (s : Screen) :
    Screen :=
  forUp 0 fontHeight (fun row s =>
    let byte := elem charBitmap row.toNat
    forUp 0 fontWidth (fun col s =>
      let px := x + col
      let py := y + row
      if px ≥ 0 ∧ px < s.fbWidth ∧ py ≥ 0 ∧ py < s.fbHeight then
        let color := if byte &&& ((0x80 : UInt8) >>> UInt8.ofInt col) ≠ 0 then fgColor else bgColor
        plot (py * s.fbPitch + px) color s
      else s) s) s

/-- A `char` above 127 is negative and fails the first comparison; as an unsigned
byte it fails the second. -/
def drawAsciiChar (x y : ℤ) (c : UInt8) (color : UInt32) (s : Screen) : Screen :=
  if h : 32 ≤ c ∧ c ≤ 126 then drawChar x y (glyph c h) color s else s

def drawAsciiCharWithBg (x y : ℤ) (c : UInt8) (fgColor bgColor : UInt32) (s : Screen) : Screen :=
  if h : 32 ≤ c ∧ c ≤ 126 then drawCharWithBg x y (glyph c h) fgColor bgColor s
  else
    forUp 0 fontHeight (fun row s =>
      forUp 0 fontWidth (fun col s =>
        let px := x + col
        let py := y + row
        if px ≥ 0 ∧ px < s.fbWidth ∧ py ≥ 0 ∧ py < s.fbHeight then
          plot (py * s.fbPitch + px) bgColor s
        else s) s) s

/-- A string argument is the list of the bytes before its terminator. -/
def drawString (x y : ℤ) (str : List UInt8) (color : UInt32) (s : Screen) : Screen :=
  match str with
  | [] => s
  | c :: str => drawString (x + fontWidth) y str color (drawAsciiChar x y c color s)

def drawStringWithBg (x y : ℤ) (str : List UInt8) (fgColor bgColor : UInt32) (s : Screen) : Screen :=
  match str with
  | [] => s
  | c :: str =>
    drawStringWithBg (x + fontWidth) y str fgColor bgColor (drawAsciiCharWithBg x y c fgColor bgColor s)

def clearScreen (color : UInt32) (s : Screen) : Screen :=
  forUp 0 s.fbHeight (fun y s =>
    forUp 0 s.fbWidth (fun x s => plot (y * s.fbPitch + x) color s) s) s

def drawRect (x y width height : ℤ) (color : UInt32) (s : Screen) : Screen :=
  forUp y (min (y + height) s.fbHeight) (fun py s =>
    forUp x (min (x + width) s.fbWidth) (fun px s =>
      if px ≥ 0 ∧ py ≥ 0 then plot (py * s.fbPitch + px) color s else s) s) s

/-- The same loops as those of `draw_rect`. -/
def removeRect (x y width height : ℤ) (bgColor : UInt32) : Screen → Screen :=
  drawRect x y width height bgColor

end BinOs.FramebufferDrawing
