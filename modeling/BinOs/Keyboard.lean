import BinOs.SerialPort
import BinOs.ShellCommands

/-! # The PS/2 keyboard driver

One interrupt delivers the controller's status and one byte of the key stream. -/
namespace BinOs.Keyboard
open MemoryStrings FramebufferDrawing ShellConsole LineEditor ShellCommands SerialPort

abbrev keyEsc : UInt8 := 1
abbrev keyCtrl : UInt8 := 2
abbrev keyLshift : UInt8 := 3
abbrev keyRshift : UInt8 := 4
abbrev keyAlt : UInt8 := 5
abbrev keyCaps : UInt8 := 6
abbrev keyBackspace : UInt8 := 8
abbrev keyTab : UInt8 := 9
abbrev keyEnter : UInt8 := 10
abbrev keySpace : UInt8 := 32
abbrev keyF1 : UInt8 := 128
abbrev keyF12 : UInt8 := 139
abbrev keyHome : UInt8 := 140
abbrev keyEnd : UInt8 := 141
abbrev keyPgup : UInt8 := 142
abbrev keyPgdown : UInt8 := 143
abbrev keyUp : UInt8 := 144
abbrev keyDown : UInt8 := 145
abbrev keyLeft : UInt8 := 146
abbrev keyRight : UInt8 := 147
abbrev keyInsert : UInt8 := 148
abbrev keyDelete : UInt8 := 149

/-- The rows of the table; the 128 entries end in zeros. -/
def scancodeRows : List UInt8 :=
  [0, keyEsc] ++ ascii "1234567890-=" ++ [keyBackspace, keyTab] ++
  ascii "qwertyuiop[]" ++ [keyEnter, keyCtrl] ++
  ascii "asdfghjkl;'`" ++ [keyLshift] ++
  ascii "\\zxcvbnm,./" ++ [keyRshift] ++ ascii "*" ++ [keyAlt, keySpace, keyCaps] ++
  [128, 129, 130, 131, 132, 133, 134, 135, 136, 137] ++ [0, 0] ++
  [keyHome, keyUp, keyPgup] ++ ascii "-" ++ [keyLeft, 0, keyRight] ++ ascii "+" ++
  [keyEnd, keyDown, keyPgdown, keyInsert, keyDelete] ++ [0, 0, 0] ++ [138, 139]

def scancodeMap (scancode : UInt8) : UInt8 := scancodeRows.getD scancode.toNat 0

def extendedScancodePairs : List (UInt8 × UInt8) :=
  [(0x48, keyUp), (0x50, keyDown), (0x4B, keyLeft), (0x4D, keyRight), (0x47, keyHome),
    (0x4F, keyEnd), (0x49, keyPgup), (0x51, keyPgdown), (0x52, keyInsert), (0x53, keyDelete),
    (0x1C, keyEnter), (0x1D, keyCtrl), (0x38, keyAlt)]

def extendedScancodeMap (scancode : UInt8) : UInt8 :=
  (extendedScancodePairs.lookup scancode).getD 0

def shiftPairs : List (UInt8 × UInt8) :=
  (ascii "1234567890-=[]\\;'`,./").zip (ascii "!@#$%^&*()_+\x7b\x7d|:\"~<>?")

def shiftMap (c : UInt8) : UInt8 := (shiftPairs.lookup c).getD 0

/-- The driver's five static flags. -/
structure Flags where
  capsLockOn : Bool
  shiftPressed : Bool
  ctrlPressed : Bool
  altPressed : Bool
  extendedScancode : Bool
  deriving DecidableEq

/-- The driver with the shell behind it. `uart` is what has been sent to the serial
port. `parsed` is a history that no function reads: the command buffer at each call of
`parse_command`. -/
structure Driver where
  flags : Flags
  shell : Shell
  uart : List UInt8
  parsed : List Buffer

/-- `serial_printf(format, ...)` -/
def report (format : String) (args : List Arg) (k : Driver) : Option Driver :=
  (serialPrintf (literal (ascii format)) args).map fun out => { k with uart := k.uart ++ out }

def onShell (f : Shell → Option Shell) (k : Driver) : Option Driver :=
  (f k.shell).map fun shell => { k with shell }

def callParseCommand (k : Driver) : Option Driver :=
  onShell parseCommand { k with parsed := k.parsed ++ [k.shell.commandBuffer] }

/-- `char *command = input(c); if (command) parse_command();` -/
def typeChar (c : UInt8) (k : Driver) : Option Driver := do
  let (shell, command) ← input c k.shell
  if command then callParseCommand { k with shell } else some { k with shell }

def getCharacter (f : Flags) (key : UInt8) : UInt8 :=
  if key = 0 ∨ key ≥ 128 then 0
  else if key ≥ 97 ∧ key ≤ 122 then
    if f.capsLockOn ^^ f.shiftPressed then key - 97 + 65 else key
  else if f.shiftPressed ∧ shiftMap key ≠ 0 then shiftMap key
  else key

def handleSpecialKey (key : UInt8) (pressed : Bool) (k : Driver) : Option Driver :=
  if !pressed then some k
  else if key = keyEsc then report "[ESC]\r\n" [] k
  else if keyF1 ≤ key ∧ key ≤ keyF12 then
    report "[F%d]\r\n" [.int ((key.toNat : ℤ) - keyF1.toNat + 1)] k
  else if key = keyHome then report "[HOME]\r\n" [] k
  else if key = keyEnd then report "[END]\r\n" [] k
  else if key = keyUp then report "[UP]\r\n" [] k
  else if key = keyDown then report "[DOWN]\r\n" [] k
  else if key = keyLeft then onShell shellMoveCursorLeft k
  else if key = keyRight then onShell shellMoveCursorRight k
  else if key = keyInsert then report "[INSERT]\r\n" [] k
  else if key = keyDelete then report "[DELETE]\r\n" [] k
  else if key = keyPgup then report "[PGUP]\r\n" [] k
  else if key = keyPgdown then report "[PGDOWN]\r\n" [] k
  else if key = keyTab then report "[TAB]\r\n" [] k
  else some k

def handleModifierKey (key : UInt8) (pressed : Bool) (k : Driver) : Option Driver :=
  if key = keyLshift ∨ key = keyRshift then
    some { k with flags := { k.flags with shiftPressed := pressed } }
  else if key = keyCtrl then some { k with flags := { k.flags with ctrlPressed := pressed } }
  else if key = keyAlt then some { k with flags := { k.flags with altPressed := pressed } }
  else if key = keyCaps then
    if pressed then
      let on := !k.flags.capsLockOn
      report "[CAPS LOCK %s]\r\n" [.string (some (ascii (if on then "ON" else "OFF")))]
        { k with flags := { k.flags with capsLockOn := on } }
    else some k
  else some k

def handlePrintableKey (key : UInt8) (pressed : Bool) (k : Driver) : Option Driver :=
  if !pressed then some k
  else
    let c := getCharacter k.flags key
    if c = 0 then some k
    else if k.flags.ctrlPressed then
      if c = 99 ∨ c = 67 then onShell shellCancelInput k
      else if c = 108 ∨ c = 76 then
        onShell (fun s => (shellCancelInput s).map fun s =>
          onScreen shellPrintPrompt (onScreen cmdClear s)) k
      else some k
    else if k.flags.altPressed then report "[ALT+%c]\r\n" [.int c.toNat] k
    else do report "%c" [.int c.toNat] (← typeChar c k)

def isModifier (key : UInt8) : Prop :=
  key = keyLshift ∨ key = keyRshift ∨ key = keyCtrl ∨ key = keyAlt ∨ key = keyCaps

instance (key : UInt8) : Decidable (isModifier key) := inferInstanceAs (Decidable (_ ∨ _))

/-- The dispatch at the end of `keyboard_handler`. -/
def handleKey (key : UInt8) (keyPressed : Bool) (k : Driver) : Option Driver :=
  if key = 0 then some k
  else if isModifier key then handleModifierKey key keyPressed k
  else if key = keyBackspace then
    if keyPressed then do report "[BACKSPACE]\r\n" [] (← typeChar 8 k) else some k
  else if key = keyEnter then
    if keyPressed then do report "\r\n" [] (← typeChar 10 k) else some k
  else if key ≥ keyF1 ∧ key ≤ keyDelete then handleSpecialKey key keyPressed k
  else if key ≥ 32 ∧ key ≤ 126 then handlePrintableKey key keyPressed k
  else some k

def decodeKey (f : Flags) (scancode : UInt8) : UInt8 :=
  if f.extendedScancode then extendedScancodeMap scancode else scancodeMap scancode

/-- Bit 0 of the status says that the controller has a byte. A scancode has seven
bits, so the handler's test for one above 127 never holds. -/
def keyboardHandler (status data : UInt8) (k : Driver) : Option Driver :=
  if status &&& 0x01 = 0 then some k
  else if data = 0xE0 then some { k with flags := { k.flags with extendedScancode := true } }
  else
    let scancode := data &&& 0x7F
    let keyPressed := data &&& 0x80 == 0
    handleKey (decodeKey k.flags scancode) keyPressed
      { k with flags := { k.flags with extendedScancode := false } }

/-- One interrupt after another, each a status and a byte. -/
def handleInterrupts : List (UInt8 × UInt8) → Driver → Option Driver
  | [], k => some k
  | (status, data) :: rest, k => (keyboardHandler status data k).bind (handleInterrupts rest)

end BinOs.Keyboard
