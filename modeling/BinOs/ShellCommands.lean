import BinOs.LineEditor

/-! # Running a submitted command -/
namespace BinOs.ShellCommands
open BoundedLoops CheckedBuffers MemoryStrings ShellConsole LineEditor

abbrev maxArgs : ℕ := 8
abbrev maxArgLength : ℤ := 32

abbrev Args := Vector (Vector UInt8 32) 8

def isBlank (c : UInt8) : Prop := c = 32 ∨ c = 9

instance (c : UInt8) : Decidable (isBlank c) := inferInstanceAs (Decidable (_ ∨ _))

section Parsing
variable {n : ℕ} (command : Vector UInt8 n)

def skipBlanks : ℕ → ℤ → Option ℤ
  | 0, _ => none
  | fuel + 1, i => do
    if isBlank (← read command i) then skipBlanks fuel (i + 1) else some i

/-- Copy one word, or its first 31 characters, to the front of `arg`. -/
def copyWord : ℕ → ℤ → ℤ → Vector UInt8 32 →
    Option (ℤ × ℤ × Vector UInt8 32)
  | 0, _, _, _ => none
  | fuel + 1, i, j, arg => do
    let c ← read command i
    if c ≠ 0 ∧ ¬ isBlank c ∧ j < maxArgLength - 1 then
      copyWord fuel (i + 1) (j + 1) (← write arg j c)
    else some (i, j, arg)

/-- The outer loop stores one more argument on every pass, so it has no more passes
than there are arguments left to fill. -/
def parseArgsLoop : ℕ → ℤ → ℤ → Args → Option (Args × ℤ)
  | 0, i, argc, args => (read command i).map fun _ => (args, argc)
  | left + 1, i, argc, args => do
    if (← read command i) = 0 then some (args, argc) else
    let i ← skipBlanks command (n + 1) i
    if (← read command i) = 0 then some (args, argc) else
    let (i, j, arg) ← copyWord command (n + 1) i 0 (← read args argc)
    let args ← write args argc (← write arg j 0)
    parseArgsLoop left i (argc + 1) args

def parseArgs (args : Args) : Option (Args × ℤ) := parseArgsLoop command maxArgs 0 0 args

end Parsing

def shellError (text : List UInt8) (s : Shell) : Option Shell := do
  let s := onScreen (shellPrintColor (ascii "Error: ") errorColor) s
  let s := onScreen (shellPrint text) s
  let s := onScreen (shellPrint (ascii ": ")) s
  let s := onScreen (shellPrint (← contents s.commandBuffer)) s
  some (onScreen (shellPrint (ascii "\n")) s)

def cmdHello (argc : ℤ) (args : Args) (s : Shell) : Option Shell :=
  if argc > 1 then do
    let s := onScreen (shellPrint (ascii "Hello, ")) s
    let s := onScreen (shellPrint (← contents (← read args 1))) s
    some (onScreen (shellPrint (ascii "!\n")) s)
  else some (onScreen (shellPrint (ascii "Hello, World!\n")) s)

/-- One pass of the loop of `cmd_echo`. -/
def echoWord (argc : ℤ) (args : Args) (i : ℤ) (s : Shell) : Option Shell := do
  let s := onScreen (shellPrint (← contents (← read args i))) s
  some (if i < argc - 1 then onScreen (shellPrint (ascii " ")) s else s)

def cmdEcho (argc : ℤ) (args : Args) (s : Shell) : Option Shell :=
  if argc < 2 then shellError (ascii "echo: missing argument") s
  else (forUpM 1 argc (echoWord argc args) s).map (onScreen (shellPrint (ascii "\n")))

/-- One line of the listing, for entry `history_index + i`, and the count so far. -/
def historyLine (i : ℤ) (state : Shell × ℕ) : Option (Shell × ℕ) := do
  let (s, count) := state
  let entry ← read s.history ((s.historyIndex + i).tmod maxHistoryEntries)
  if (← strlen entry) > 0 then
    let s := onScreen (shellPrint (ascii "  ")) s
    let s := onScreen (shellPrint (← contents entry)) s
    some (onScreen (shellPrint (ascii "\n")) s, count + 1)
  else some (s, count)

def cmdHistory (s : Shell) : Option Shell := do
  let s := onScreen (shellPrint (ascii "Command history:\n")) s
  let (s, count) ← forUpM 0 maxHistoryEntries historyLine (s, 0)
  some (if count = 0 then onScreen (shellPrint (ascii "  (no commands in history)\n")) s else s)

/-- `strcmp(args[0], name) == 0` -/
def commandIs (args : Args) (name : List UInt8) : Option Bool := do
  some ((← strcmp (← read args 0) (literal name)) == 0)

def promptAgain (s : Shell) : Option Shell := shellDrawInputLine (onScreen shellPrintPrompt s)

/-- The dispatch on the first word; the flag is set by `exit`, which returns at once. -/
def runCommand (argc : ℤ) (args : Args) (s : Shell) : Option (Shell × Bool) := do
  if ← commandIs args (ascii "hello") then some (← cmdHello argc args s, false)
  else if ← commandIs args (ascii "help") then some (onScreen cmdHelp s, false)
  else if ← commandIs args (ascii "clear") then some (onScreen cmdClear s, false)
  else if ← commandIs args (ascii "echo") then some (← cmdEcho argc args s, false)
  else if ← commandIs args (ascii "history") then some (← cmdHistory s, false)
  else if ← commandIs args (ascii "uptime") then some (onScreen cmdUptime s, false)
  else if ← commandIs args (ascii "exit") then some (onScreen cmdExit s, true)
  else
    let s ← shellError (ascii "Unknown command") s
    some (onScreen (shellPrint (ascii "Type 'help' for available commands.\n")) s, false)

/-- `args` is a local array; the bytes found in it are overwritten before they are read. -/
def parseCommand (s : Shell) : Option Shell := do
  if (← read s.commandBuffer 0) = 0 then promptAgain s else
  let (args, argc) ← parseArgs s.commandBuffer (Vector.replicate _ (Vector.replicate _ 0))
  if argc = 0 then promptAgain s else
  let (s, exited) ← runCommand argc args s
  if exited then some s else
  let commandBuffer ← write s.commandBuffer 0 0
  promptAgain { s with commandBuffer }

end BinOs.ShellCommands
