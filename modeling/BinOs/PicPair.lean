import BinOs.SerialPort

/-! # Port writes and the two interrupt controllers

Two 8259 controllers stand behind the ports 0x20, 0x21 and 0xA0, 0xA1, the second one
on line 2 of the first. Writes to any port are recorded in order. -/
namespace BinOs.PicPair
open MemoryStrings SerialPort

abbrev pic1Command : UInt16 := 0x20
abbrev pic1Data : UInt16 := 0x21
abbrev pic2Command : UInt16 := 0xA0
abbrev pic2Data : UInt16 := 0xA1
abbrev picEoi : UInt8 := 0x20
abbrev serialData : UInt16 := 0x3F8

/-- Numerals for interrupt lines are the same terms in every module. -/
instance neZero_lines : NeZero 16 := ⟨by decide⟩

/-- One controller. `offset` is the vector of its line 0; `awaited` counts the
initialization words still to come on the data port. -/
structure Pic where
  mask : UInt8
  offset : UInt8
  awaited : ℕ
  deriving DecidableEq

/-- A command with bit 4 set starts the initialization, which clears the mask. The
kernel's asks for all three words: offset, cascade and mode. -/
def Pic.command (data : UInt8) (p : Pic) : Pic :=
  if data &&& 0x10 ≠ 0 then { p with mask := 0, awaited := 3 } else p

/-- The data port takes the mask unless an initialization word is awaited. -/
def Pic.data (data : UInt8) (p : Pic) : Pic :=
  match p.awaited with
  | 0 => { p with mask := data }
  | 3 => { p with offset := data, awaited := 2 }
  | n + 1 => { p with awaited := n }

structure Ports where
  master : Pic
  slave : Pic
  written : List (UInt16 × UInt8)

def outb (port : UInt16) (data : UInt8) (s : Ports) : Ports :=
  { master := if port = pic1Command then s.master.command data
      else if port = pic1Data then s.master.data data else s.master
    slave := if port = pic2Command then s.slave.command data
      else if port = pic2Data then s.slave.data data else s.slave
    written := s.written ++ [(port, data)] }

/-- The mask, on either data port; no other port is read through this function. -/
def inb (port : UInt16) (s : Ports) : UInt8 :=
  if port = pic1Data then s.master.mask else if port = pic2Data then s.slave.mask else 0xFF

/-- Bytes sent on the serial port. -/
def sendSerial (out : List UInt8) (s : Ports) : Ports :=
  out.foldl (fun s c => outb serialData c s) s

/-- `write_serial(text)` -/
def writeSerialText (text : String) : Ports → Ports := sendSerial (writeSerial (ascii text))

/-- `serial_printf(text)` for a text without conversions. -/
def printSerialText (text : String) : Ports → Ports :=
  sendSerial ((serialPrintf (literal (ascii text)) []).getD [])

def picSendEoi (irq : UInt8) (s : Ports) : Ports :=
  outb pic1Command picEoi (if irq ≥ 8 then outb pic2Command picEoi s else s)

def picDisable (s : Ports) : Ports := outb pic2Data 0xFF (outb pic1Data 0xFF s)

/-- The low byte of `1 << line`. C leaves a count of 32 or more undefined; the
processor takes it modulo 32. -/
def lineBit (line : UInt8) : UInt8 := ((1 : UInt32) <<< line.toUInt32).toUInt8

/-- Read the mask register that has the line's bit, combine it with that bit and write it
back. -/
def changeMask (combine : UInt8 → UInt8 → UInt8) (line : UInt8) (s : Ports) : Ports :=
  if line < 8 then outb pic1Data (combine (inb pic1Data s) (lineBit line)) s
  else outb pic2Data (combine (inb pic2Data s) (lineBit (line - 8))) s

def irqSetMask : UInt8 → Ports → Ports := changeMask fun value bit => value ||| bit
def irqClearMask : UInt8 → Ports → Ports := changeMask fun value bit => value &&& ~~~bit
def picEnableIrq : UInt8 → Ports → Ports := changeMask fun value bit => value &&& ~~~bit

def initPic (s : Ports) : Ports :=
  let s := outb 0x20 0x11 s
  let s := outb 0xA0 0x11 s
  let s := outb 0x21 0x20 s
  let s := outb 0xA1 0x28 s
  let s := outb 0x21 0x04 s
  let s := outb 0xA1 0x02 s
  let s := outb 0x21 0x01 s
  let s := outb 0xA1 0x01 s
  let s := outb 0x21 0xFC s
  let s := outb 0xA1 0xFF s
  writeSerialText "PIC: Initialized - Timer and Keyboard enabled\n" s

def picEnableTimerIrq (s : Ports) : Ports :=
  let mask := inb 0x21 s &&& ~~~lineBit 0
  writeSerialText "PIC: Timer IRQ0 enabled\n" (outb 0x21 mask s)

/-- From the keyboard driver. -/
def enableKeyboardIrq (s : Ports) : Ports :=
  let mask := inb 0x21 s &&& ~~~lineBit 1
  printSerialText "Keyboard: IRQ1 enabled in PIC\r\n" (outb 0x21 mask s)

theorem Pic.data_operating {p : Pic} (h : p.awaited = 0) (v : UInt8) :
    p.data v = { p with mask := v } := by
  cases p
  cases h
  rfl

theorem outb_other {port : UInt16} (hport : port ∉ [pic1Command, pic1Data, pic2Command, pic2Data])
    (data : UInt8) (s : Ports) : (outb port data s).master = s.master ∧
      (outb port data s).slave = s.slave := by
  simp only [List.mem_cons, List.not_mem_nil, or_false, not_or] at hport
  obtain ⟨h1c, h1d, h2c, h2d⟩ := hport
  constructor
  · rw [outb, if_neg h1c, if_neg h1d]
  · rw [outb, if_neg h2c, if_neg h2d]

/-- Serial output leaves the controllers alone. -/
theorem sendSerial_eq (out : List UInt8) (s : Ports) : sendSerial out s =
    { s with written := s.written ++ out.map fun c => (serialData, c) } := by
  induction out generalizing s with
  | nil => rw [sendSerial, List.foldl_nil, List.map_nil, List.append_nil]
  | cons c out ih =>
    obtain ⟨hmaster, hslave⟩ := outb_other (by decide : serialData ∉ _) c s
    have hfirst : outb serialData c s = { s with written := s.written ++ [(serialData, c)] } := by
      rw [outb] at hmaster hslave ⊢
      simp only at hmaster hslave
      rw [hmaster, hslave]
    have hrest := ih (outb serialData c s)
    rw [sendSerial] at hrest
    rw [sendSerial, List.foldl_cons, hrest, hfirst]
    simp only [List.map_cons, List.append_assoc, List.singleton_append]

end BinOs.PicPair
