import BinOs.CheckedBuffers
import BinOs.SerialPort

/-! # The real-time clock

The seven registers of the clock advance together, by any number of seconds before any
port access. Loops that wait for the clock take a bound on their passes. -/
namespace BinOs.RealTimeClock
open CheckedBuffers MemoryStrings SerialPort

abbrev rtcSeconds : UInt8 := 0x00
abbrev rtcMinutes : UInt8 := 0x02
abbrev rtcHours : UInt8 := 0x04
abbrev rtcDay : UInt8 := 0x07
abbrev rtcMonth : UInt8 := 0x08
abbrev rtcYear : UInt8 := 0x09
abbrev rtcCentury : UInt8 := 0x32
abbrev rtcRegA : UInt8 := 0x8A
abbrev rtcRegB : UInt8 := 0x8B

/-- The seven registers, as they stand in the chip. -/
structure Registers where
  second : UInt8
  minute : UInt8
  hour : UInt8
  day : UInt8
  month : UInt8
  year : UInt8
  century : UInt8
  deriving DecidableEq

def Registers.select (r : Registers) (address : UInt8) : UInt8 :=
  if address = rtcSeconds then r.second
  else if address = rtcMinutes then r.minute
  else if address = rtcHours then r.hour
  else if address = rtcDay then r.day
  else if address = rtcMonth then r.month
  else if address = rtcYear then r.year
  else if address = rtcCentury then r.century
  else 0

/-- The registers at every second. The seconds differ throughout each minute. -/
structure Clock where
  registers : ℕ → Registers
  distinct : ∀ t u, t ≤ u → u < t + 60 → (registers t).second = (registers u).second → t = u

/-- The chip and its surroundings: how many seconds pass before each port access, and what
each reading of register A gives. -/
structure Chip where
  clock : Clock
  advance : ℕ → ℕ
  registerA : ℕ → UInt8
  registerB : UInt8

/-- One pass of the loop that compares two readings. -/
structure Comparison where
  started : ℕ
  last : Registers
  kept : Registers
  ended : ℕ

/-- `uart` is what has been sent to the serial port. No function reads `history`, the
comparisons made. -/
structure Rtc where
  time : ℕ
  accesses : ℕ
  readingsA : ℕ
  index : UInt8
  uart : List UInt8
  history : List Comparison

section Device
variable (w : Chip)

def access (d : Rtc) : Rtc :=
  { d with time := d.time + w.advance d.accesses, accesses := d.accesses + 1 }

/-- `outb(RTC_INDEX, reg)` -/
def outbIndex (reg : UInt8) (d : Rtc) : Rtc := { access w d with index := reg }

/-- `inb(RTC_DATA)`; bit 7 of the index is not part of the address. -/
def inbData (d : Rtc) : UInt8 × Rtc :=
  let d := access w d
  if d.index &&& 0x7F = 0x0A then (w.registerA d.readingsA, { d with readingsA := d.readingsA + 1 })
  else if d.index &&& 0x7F = 0x0B then (w.registerB, d)
  else ((w.clock.registers d.time).select (d.index &&& 0x7F), d)

def readRtcRegister (reg : UInt8) (d : Rtc) : UInt8 × Rtc := inbData w (outbIndex w reg d)

def rtcIsUpdating (d : Rtc) : UInt8 × Rtc :=
  let value := inbData w (outbIndex w rtcRegA d)
  (value.1 &&& 0x80, value.2)

def waitForRtcUpdate : ℕ → Rtc → Option Rtc
  | 0, _ => none
  | fuel + 1, d =>
    let updating := rtcIsUpdating w d
    if updating.1 ≠ 0 then waitForRtcUpdate fuel updating.2 else some updating.2

def bcdToBinary (bcd : UInt8) : UInt8 :=
  ((bcd &&& 0xF0) >>> 1) + ((bcd &&& 0xF0) >>> 3) + (bcd &&& 0x0F)

/-- Seven readings in a row, as the loop of `read_rtc_time` makes them twice. -/
def readRegisters (d : Rtc) : Registers × Rtc :=
  let (second, d) := readRtcRegister w rtcSeconds d
  let (minute, d) := readRtcRegister w rtcMinutes d
  let (hour, d) := readRtcRegister w rtcHours d
  let (day, d) := readRtcRegister w rtcDay d
  let (month, d) := readRtcRegister w rtcMonth d
  let (year, d) := readRtcRegister w rtcYear d
  let (century, d) := readRtcRegister w rtcCentury d
  ({ second, minute, hour, day, month, year, century }, d)

/-- The body of the loop of `read_rtc_time`. -/
def readTwice (fuel : ℕ) (d : Rtc) : Option (Comparison × Rtc) :=
  let first := readRegisters w d
  (waitForRtcUpdate w fuel first.2).map fun d' =>
    let second := readRegisters w d'
    let i : Comparison :=
      { started := (access w d).time, last := first.1, kept := second.1, ended := second.2.time }
    (i, { second.2 with history := second.2.history ++ [i] })

/-- The loop, of at most so many passes. -/
def readUntilStable (fuel : ℕ) : ℕ → Rtc → Option (Registers × Rtc)
  | 0, _ => none
  | passes + 1, d => do
    let (i, d) ← readTwice w fuel d
    if i.last ≠ i.kept then readUntilStable fuel passes d else some (i.kept, d)

/-- What `read_rtc_time` stores through its six pointers. -/
structure RtcTime where
  second : UInt8
  minute : UInt8
  hour : UInt8
  day : UInt8
  month : UInt8
  year : UInt8
  deriving DecidableEq

def Registers.fromBcd (r : Registers) : Registers where
  second := bcdToBinary r.second
  minute := bcdToBinary r.minute
  hour := bcdToBinary (r.hour &&& 0x7F) ||| (r.hour &&& 0x80)
  day := bcdToBinary r.day
  month := bcdToBinary r.month
  year := bcdToBinary r.year
  century := bcdToBinary r.century

/-- What `read_rtc_time` makes of the registers; `int` results are cut to a byte. -/
def decode (registerB : UInt8) (r : Registers) : RtcTime :=
  let r := if registerB &&& 0x04 = 0 then r.fromBcd else r
  let hour := if registerB &&& 0x02 = 0 ∧ r.hour &&& 0x80 ≠ 0 then ((r.hour &&& 0x7F) + 12) % 24
    else r.hour
  let century := if r.century = 0 then 20 else r.century
  { second := r.second
    minute := r.minute
    hour
    day := r.day
    month := r.month
    year := r.year + century * 100 }

def readRtcTime (fuel : ℕ) (d : Rtc) : Option (RtcTime × Rtc) := do
  let d ← waitForRtcUpdate w fuel { d with uart := d.uart ++ writeSerial (ascii "read_rtc_time") }
  let (raw, d) ← readUntilStable w fuel fuel d
  let registerB := readRtcRegister w rtcRegB d
  some (decode registerB.1 raw, registerB.2)

def getRtcTime12Hour (fuel : ℕ) (timeStr : Vector UInt8 12) (d : Rtc) :
    Option (Vector UInt8 12 × Rtc) := do
  let (t, d) ← readRtcTime w fuel d
  let (displayHour, amPm) :=
    if t.hour = 0 then (12, ascii "AM")
    else if t.hour < 12 then (t.hour, ascii "AM")
    else if t.hour = 12 then (t.hour, ascii "PM")
    else (t.hour - 12, ascii "PM")
  let timeStr ← writeFrom 0 ([displayHour / 10 + 48, displayHour % 10 + 48] ++ ascii ":" ++
    [t.minute / 10 + 48, t.minute % 10 + 48] ++ ascii ":" ++
    [t.second / 10 + 48, t.second % 10 + 48] ++ ascii " " ++ amPm ++ [0]) timeStr
  some (timeStr, d)

/-- The hour, minute and second stored, and the array `am_pm`. -/
def getRtcTime12HourComponents (fuel : ℕ) (amPm : Vector UInt8 3) (d : Rtc) :
    Option ((UInt8 × UInt8 × UInt8) × Vector UInt8 3 × Rtc) := do
  let (t, d) ← readRtcTime w fuel d
  let (hour12, letters) :=
    if t.hour = 0 then (12, ascii "AM")
    else if t.hour < 12 then (t.hour, ascii "AM")
    else if t.hour = 12 then (12, ascii "PM")
    else (t.hour - 12, ascii "PM")
  let amPm ← writeFrom 0 (letters ++ [0]) amPm
  some ((hour12, t.minute, t.second), amPm, d)

variable {w} {d d' : Rtc}

theorem readRtcRegister_time (reg : UInt8) (d : Rtc) :
    (access w d).time ≤ (readRtcRegister w reg d).2.time := by
  rw [readRtcRegister, inbData]
  split_ifs
  · exact Nat.le_add_right _ _
  · exact Nat.le_add_right _ _
  · exact Nat.le_add_right _ _

theorem readRtcRegister_history (reg : UInt8) (d : Rtc) :
    (readRtcRegister w reg d).2.history = d.history := by
  rw [readRtcRegister, inbData]
  split_ifs
  · rfl
  · rfl
  · rfl

/-- A date or time register is read as it stands when its own access is made. -/
theorem readRtcRegister_clock {reg : UInt8} (hA : reg &&& 0x7F ≠ 0x0A) (hB : reg &&& 0x7F ≠ 0x0B)
    (d : Rtc) : (readRtcRegister w reg d).1 =
      (w.clock.registers (readRtcRegister w reg d).2.time).select (reg &&& 0x7F) := by
  have hindex : (access w (outbIndex w reg d)).index = reg := rfl
  rw [readRtcRegister, inbData]
  rw [hindex, if_neg hA, if_neg hB]

theorem readRtcRegister_registerB (d : Rtc) : (readRtcRegister w rtcRegB d).1 = w.registerB := by
  have hindex : (access w (outbIndex w rtcRegB d)).index = rtcRegB := rfl
  rw [readRtcRegister, inbData, hindex, if_neg (by decide), if_pos (by decide)]

theorem access_time_le (d : Rtc) : d.time ≤ (access w d).time := Nat.le_add_right _ _

end Device

end BinOs.RealTimeClock
