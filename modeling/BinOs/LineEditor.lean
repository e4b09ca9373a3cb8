import BinOs.ShellConsole

/-! # The shell's line editor and its history

The buffers are arrays whose every access is checked: an index outside one ends the
call with `none`. Integers are unbounded, none of them leaves the `int` range. -/
namespace BinOs.LineEditor
open BoundedLoops CheckedBuffers MemoryStrings FramebufferDrawing ShellConsole

abbrev maxInputLength : ℤ := 256
abbrev maxHistoryEntries : ℤ := 10

abbrev Buffer := Vector UInt8 256

structure Shell where
  commandBuffer : Buffer
  inputBuffer : Buffer
  history : Vector Buffer 10
  historyIndex : ℤ
  historyCurrent : ℤ
  inputIndex : ℤ
  cursorPos : ℤ
  cursorBlinkCounter : ℤ
  cursorVisible : ℤ
  screen : Screen

def onScreen (f : Screen → Screen) (s : Shell) : Shell := { s with screen := f s.screen }

def shellInit (s : Shell) : Option Shell := do
  let inputBuffer ← write s.inputBuffer 0 0
  let commandBuffer ← write s.commandBuffer 0 0
  let screen := moveCursorTo 0 0 (clearScreen bgColor s.screen)
  some { s with
    inputBuffer, commandBuffer
    inputIndex := 0
    cursorPos := 0
    historyIndex := 0
    historyCurrent := 0
    cursorBlinkCounter := 0
    history := Vector.replicate _ (Vector.replicate _ 0)
    screen := shellPrintPrompt (shellPrintWelcome screen) }

/-- The picture after `shell_draw_input_line`. -/
def inputLinePicture (s : Shell) : Option Screen := do
  let promptX := getCursorX s.screen - 2 * charWidth
  let promptY := getCursorY s.screen
  let screen := drawRect promptX promptY (getScreenWidth s.screen - promptX) lineHeight bgColor
    s.screen
  let screen := drawString promptX promptY (ascii "$ ") textColor screen
  let textX := promptX + 2 * charWidth
  let screen := drawString textX promptY (← contents s.inputBuffer) textColor screen
  if s.cursorVisible ≠ 0 then
    let cursorX := textX + s.cursorPos * charWidth
    let screen := drawRect cursorX promptY charWidth lineHeight cursorColor screen
    if s.cursorPos < s.inputIndex then
      let cursorChar ← read s.inputBuffer s.cursorPos
      if cursorChar ≠ 0 then some (drawString cursorX promptY [cursorChar] bgColor screen)
      else some screen
    else some screen
  else some screen

def shellDrawInputLine (s : Shell) : Option Shell :=
  (inputLinePicture s).map fun screen => { s with screen }

def shellUpdateCursor (s : Shell) : Option Shell :=
  let s := { s with cursorBlinkCounter := s.cursorBlinkCounter + 1 }
  if s.cursorBlinkCounter ≥ 30 then
    shellDrawInputLine { s with
      cursorVisible := if s.cursorVisible = 0 then 1 else 0
      cursorBlinkCounter := 0 }
  else some s

def shellBackspace (s : Shell) : Option Shell :=
  if s.cursorPos > 0 then do
    let inputBuffer ← shiftDown s.inputBuffer (s.cursorPos - 1) s.inputIndex 1
    let cursorPos := s.cursorPos - 1
    let inputIndex := s.inputIndex - 1
    let inputBuffer ← write inputBuffer inputIndex 0
    shellDrawInputLine { s with inputBuffer, cursorPos, inputIndex }
  else some s

def shellDelete (s : Shell) : Option Shell :=
  if s.cursorPos < s.inputIndex then do
    let inputBuffer ← shiftDown s.inputBuffer s.cursorPos s.inputIndex 1
    let inputIndex := s.inputIndex - 1
    let inputBuffer ← write inputBuffer inputIndex 0
    shellDrawInputLine { s with inputBuffer, inputIndex }
  else some s

def shellMoveCursorLeft (s : Shell) : Option Shell :=
  if s.cursorPos > 0 then shellDrawInputLine { s with cursorPos := s.cursorPos - 1 } else some s

def shellMoveCursorRight (s : Shell) : Option Shell :=
  if s.cursorPos < s.inputIndex then shellDrawInputLine { s with cursorPos := s.cursorPos + 1 }
  else some s

def shellMoveCursorHome (s : Shell) : Option Shell := shellDrawInputLine { s with cursorPos := 0 }

def shellMoveCursorEnd (s : Shell) : Option Shell :=
  shellDrawInputLine { s with cursorPos := s.inputIndex }

def shellClearInput (s : Shell) : Option Shell := do
  let inputBuffer ← write s.inputBuffer 0 0
  shellDrawInputLine { s with inputBuffer, inputIndex := 0, cursorPos := 0 }

def shellCancelInput (s : Shell) : Option Shell := do
  let s ← shellClearInput s
  let s := onScreen shellNewline s
  let s := onScreen (shellPrint (ascii "^C\n")) s
  shellDrawInputLine (onScreen shellPrintPrompt s)

/-- `(i + MAX_HISTORY_ENTRIES) % MAX_HISTORY_ENTRIES` -/
def wrapHistory (i : ℤ) : ℤ := (i + maxHistoryEntries).tmod maxHistoryEntries

/-- `strlen(previous) > 0 && strcmp(previous, command) == 0` -/
def sameCommand (previous command : Buffer) : Option Bool := do
  if (← strlen previous) > 0 then some ((← strcmp previous command) == 0) else some false

def shellAddToHistory (command : Buffer) (s : Shell) : Option Shell := do
  if (← strlen command) = 0 then some s else
  let previous ← read s.history (wrapHistory (s.historyIndex - 1))
  if ← sameCommand previous command then some { s with historyCurrent := s.historyIndex } else
  let entry ← strcpy (← read s.history s.historyIndex) command
  let history ← write s.history s.historyIndex entry
  let historyIndex := (s.historyIndex + 1).tmod maxHistoryEntries
  some { s with history, historyIndex, historyCurrent := historyIndex }

/-- The common tail of the two history moves: show entry `i`. -/
def shellRecall (i : ℤ) (s : Shell) : Option Shell := do
  let inputBuffer ← strcpy s.inputBuffer (← read s.history i)
  let length ← strlen inputBuffer
  shellDrawInputLine { s with
    historyCurrent := i, inputBuffer, inputIndex := length, cursorPos := length }

def shellHistoryUp (s : Shell) : Option Shell := do
  let prev := wrapHistory (s.historyCurrent - 1)
  if (← strlen (← read s.history prev)) > 0 then shellRecall prev s else some s

def shellHistoryDown (s : Shell) : Option Shell :=
  let next := (s.historyCurrent + 1).tmod maxHistoryEntries
  if next ≠ s.historyIndex then shellRecall next s
  else (shellClearInput s).map fun s => { s with historyCurrent := s.historyIndex }

def recordCommand (s : Shell) : Option Shell := do
  if (← strlen s.commandBuffer) > 0 then shellAddToHistory s.commandBuffer s else some s

def inputEnter (s : Shell) : Option Shell := do
  let inputBuffer ← write s.inputBuffer s.inputIndex 0
  let commandBuffer ← strncpy s.commandBuffer inputBuffer (maxInputLength - 1)
  let commandBuffer ← write commandBuffer (maxInputLength - 1) 0
  let s ← recordCommand { s with inputBuffer, commandBuffer }
  shellClearInput (onScreen shellNewline s)

def inputClearScreen (s : Shell) : Option Shell :=
  let s := onScreen (clearScreen bgColor) s
  let s := onScreen (moveCursorTo 0 0) s
  shellDrawInputLine (onScreen shellPrintPrompt s)

def inputKillToEnd (s : Shell) : Option Shell := do
  let inputBuffer ← write s.inputBuffer s.cursorPos 0
  shellDrawInputLine { s with inputBuffer, inputIndex := s.cursorPos }

/-- `while (start > 0 && p(input_buffer[start])) start--` -/
def skipBack (b : Buffer) (p : UInt8 → Bool) : ℕ → Option ℕ
  | 0 => some 0
  | start + 1 => do
    let c ← read b (start + 1 : ℕ)
    if p c then skipBack b p start else some (start + 1)

/-- Back over spaces and then over other characters. Both loops stop at index 0
whatever stands there, so the byte they stopped at is looked at once more. -/
def wordStart (b : Buffer) (cursorPos : ℤ) : Option ℤ := do
  let start ← skipBack b (· == 32) (cursorPos - 1).toNat
  let start ← skipBack b (· != 32) start
  if (← read b start) = 32 then some (start + 1) else some start

def inputKillWord (s : Shell) : Option Shell :=
  if s.cursorPos > 0 then do
    let start ← wordStart s.inputBuffer s.cursorPos
    let charsToRemove := s.cursorPos - start
    let inputBuffer ← shiftDown s.inputBuffer start (s.inputIndex - charsToRemove) charsToRemove
    let inputIndex := s.inputIndex - charsToRemove
    let inputBuffer ← write inputBuffer inputIndex 0
    shellDrawInputLine { s with inputBuffer, inputIndex, cursorPos := start }
  else some s

/-- A `char` above 127 is negative and fails the first comparison; as an unsigned
byte it fails the second. -/
def inputPrintable (received : UInt8) (s : Shell) : Option Shell :=
  if received ≥ 32 ∧ received ≤ 126 ∧ s.inputIndex < maxInputLength - 1 then do
    let inputBuffer ← shiftUp s.inputBuffer s.inputIndex s.cursorPos
    let inputBuffer ← write inputBuffer s.cursorPos received
    let cursorPos := s.cursorPos + 1
    let inputIndex := s.inputIndex + 1
    let inputBuffer ← write inputBuffer inputIndex 0
    shellDrawInputLine { s with inputBuffer, cursorPos, inputIndex }
  else some s

/-- What `input` does before it returns. -/
def inputEffect (received : UInt8) : Shell → Option Shell :=
  if received = 10 ∨ received = 13 then inputEnter
  else if received = 8 ∨ received = 127 then shellBackspace
  else if received = 3 then shellCancelInput
  else if received = 4 then shellDelete
  else if received = 1 then shellMoveCursorHome
  else if received = 5 then shellMoveCursorEnd
  else if received = 12 then inputClearScreen
  else if received = 11 then inputKillToEnd
  else if received = 21 then shellClearInput
  else if received = 23 then inputKillWord
  else if received = 27 then some
  else inputPrintable received

/-- The flag tells whether `command_buffer` is returned rather than `NULL`. -/
def input (received : UInt8) (s : Shell) : Option (Shell × Bool) :=
  (inputEffect received s).map fun s => (s, received == 10 || received == 13)

end BinOs.LineEditor
