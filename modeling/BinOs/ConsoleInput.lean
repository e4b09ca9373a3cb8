import BinOs.ConsoleCalls
import BinOs.KeyboardRuns

/-! # What a key prints

Editing redraws the line and leaves the console's cursor alone. Enter, the two
shortcuts that clear something and the commands print. -/
namespace BinOs.ConsoleInput
open BoundedLoops CheckedBuffers MemoryStrings FramebufferDrawing ShellConsole LineEditor
open ShellCommands SerialPort Keyboard ShellSession LineEditorRefinement LineEditorRuns KeyboardRuns
open ConsoleLayout ConsoleCalls

def cancelCalls : List ConsoleCall := [.newline, say (ascii "^C\n"), .prompt]

def inputCalls (c : UInt8) : List ConsoleCall :=
  if c = 10 ∨ c = 13 then [.newline]
  else if c = 3 then cancelCalls
  else if c = 12 then [.clear, .prompt]
  else []

def typeCharCalls (c : UInt8) (s : Shell) : List ConsoleCall :=
  inputCalls c ++ (input c s).elim [] fun entered =>
    if entered.2 then parseCommandCalls entered.1 else []

def printableKeyCalls (key : UInt8) (pressed : Bool) (k : Driver) : List ConsoleCall :=
  if !pressed then []
  else
    let c := getCharacter k.flags key
    if c = 0 then []
    else if k.flags.ctrlPressed then
      if c = 99 ∨ c = 67 then cancelCalls
      else if c = 108 ∨ c = 76 then cancelCalls ++ [.clear, .prompt]
      else []
    else if k.flags.altPressed then []
    else typeCharCalls c k.shell

def keyCalls (key : UInt8) (pressed : Bool) (k : Driver) : List ConsoleCall :=
  if key = 0 then []
  else if isModifier key then []
  else if key = keyBackspace then if pressed then typeCharCalls 8 k.shell else []
  else if key = keyEnter then if pressed then typeCharCalls 10 k.shell else []
  else if key ≥ keyF1 ∧ key ≤ keyDelete then []
  else if key ≥ 32 ∧ key ≤ 126 then printableKeyCalls key pressed k
  else []

def interruptCalls (status data : UInt8) (k : Driver) : List ConsoleCall :=
  if status &&& 0x01 = 0 then []
  else if data = 0xE0 then []
  else keyCalls (decodeKey k.flags (data &&& 0x7F)) (data &&& 0x80 == 0) k

variable {s : Shell}

/-- The bare calls: a command runs only on the buffer that `input` returned. -/
def Alone : EditorCall → Prop
  | .parseCommand => False
  | .draw _ => False
  | _ => True

def callCalls : EditorCall → List ConsoleCall
  | .input received => inputCalls received
  | .cancelInput => cancelCalls
  | _ => []

section Keys
variable {l : Layout} {k : Driver} {a : Session}

end Keys

end BinOs.ConsoleInput
